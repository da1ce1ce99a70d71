import TronBoss.Proc.Pids

/-!
# Parents, children and `wait`

`Sys.Family` is what `fork`, `exit` and `wait` keep about the `parent` fields: a parent is alive, a
process other than `initproc` has one from the moment `fork` has set it, and a process that sleeps
in `wait` has no zombie child. A step that moves no process between the living and the others, and
sets no parent, keeps it for that reason alone (`Sys.Family.keep`); a step of `fork` or a `wait` that
frees a child replaces one slot that is not alive (`Sys.Family.replace`); `exit` is the remaining
case.
-/

namespace TronBoss

open Lib Function

/-- A process that runs, may run or sleeps. -/
def Proc.Alive (q : Proc) : Prop :=
  q.state = .runnable ∨ q.state = .running ∨ q.state = .sleeping

/-- What holds about parents and children between two steps. -/
structure Sys.Family (s : Sys) : Prop where
  init : ∃ i, s.t.initproc = some i ∧ (s.t.proc i).Alive ∧ (s.t.proc i).parent = none
  alive : ∀ q r, (s.t.proc q).parent = some r → (s.t.proc r).Alive
  self : ∀ q, (s.t.proc q).parent ≠ some q
  child : ∀ q, some q ≠ s.t.initproc → (s.t.proc q).state ≠ .unused →
    ((s.t.proc q).state = .embryo → ∃ p, s.cont p = .copied q) → (s.t.proc q).parent ≠ none
  orphan : ∀ q, (s.t.proc q).state = .unused → (s.t.proc q).parent = none
  fresh : ∀ p np, s.cont p = .alloc np ∨ s.cont p = .fork np → (s.t.proc np).parent = none
  inside : ∀ p, s.cont p ≠ .other → (s.t.proc p).Alive
  waiting : ∀ p, s.cont p = .wait → (s.t.proc p).state = .sleeping →
    (s.t.proc p).chan = .proc p ∧
      ∀ z, (s.t.proc z).state = .zombie → (s.t.proc z).parent ≠ some p

section
variable {s s' : Sys} {p : Slot}

theorem Proc.Alive.not_zombie {q : Proc} (h : q.Alive) : q.state ≠ .zombie := by
  rcases h with h | h | h <;> rw [h] <;> exact nofun

theorem Proc.Alive.not_unused {q : Proc} (h : q.Alive) : q.state ≠ .unused := by
  rcases h with h | h | h <;> rw [h] <;> exact nofun

theorem Proc.Alive.not_embryo {q : Proc} (h : q.Alive) : q.state ≠ .embryo := by
  rcases h with h | h | h <;> rw [h] <;> exact nofun

/-! ## Steps that move no process between the living and the others -/

/-- A change of the fields and the place of a process `p` that the invariant does not see, or with
which it goes to sleep in `wait` while it has no zombie child. -/
structure Sys.Keeps (s s' : Sys) (p : Slot) : Prop where
  parent : (s'.t.proc p).parent = (s.t.proc p).parent
  state : (s'.t.proc p).state = (s.t.proc p).state ∨ (s.t.proc p).Alive ∧ (s'.t.proc p).Alive
  cont : s'.cont p = s.cont p ∨
    ((s'.cont p = .other ∨ s'.cont p = .asleep ∨ s'.cont p = .wait) ∧ (s'.t.proc p).Alive) ∨
    ∃ np, s.cont p = .alloc np ∧ s'.cont p = .fork np
  waiting : s'.cont p = .wait → (s'.t.proc p).state = .sleeping →
    (s.cont p = .wait ∧ (s.t.proc p).state = .sleeping ∧
      (s'.t.proc p).chan = (s.t.proc p).chan) ∨
    ((s'.t.proc p).chan = .proc p ∧
      ∀ z, (s.t.proc z).state = .zombie → (s.t.proc z).parent ≠ some p)

theorem Sys.Keeps.alive (h : s.Keeps s' p) (hp : (s.t.proc p).Alive) : (s'.t.proc p).Alive := by
  rcases h.state with hs | hs
  · rwa [Proc.Alive, hs]
  · exact hs.2

theorem Sys.Keeps.state_eq (h : s.Keeps s' p) (hp : ¬ (s'.t.proc p).Alive) :
    (s'.t.proc p).state = (s.t.proc p).state :=
  h.state.resolve_right fun h' => hp h'.2

/-- A change of the fields of a process that stays where it is. -/
structure Proc.Stays (q q' : Proc) : Prop where
  parent : q'.parent = q.parent
  state : q'.state = q.state ∨ q.Alive ∧ q'.Alive
  asleep : q'.state = .sleeping → q.state = .sleeping ∧ q'.chan = q.chan

theorem Proc.Stays.refl (q : Proc) : q.Stays q := ⟨rfl, .inl rfl, fun h => ⟨h, rfl⟩⟩

theorem Proc.Stays.keeps (h : (s.t.proc p).Stays (s'.t.proc p)) (hc : s'.cont p = s.cont p) :
    s.Keeps s' p :=
  ⟨h.parent, h.state, .inl hc, fun hc' hs => .inl ⟨hc.symm.trans hc', h.asleep hs⟩⟩

theorem Proc.Stays.alive {q q' : Proc} (h : q.Stays q') (ha : q.Alive) : q'.Alive := by
  rcases h.state with hs | hs
  · rwa [Proc.Alive, hs]
  · exact hs.2

/-- A living process leaves the routine it is in. -/
theorem Proc.Stays.leaves (h : (s.t.proc p).Stays (s'.t.proc p)) (ha : (s.t.proc p).Alive)
    (hc : s'.cont p = .other) : s.Keeps s' p :=
  ⟨h.parent, h.state, .inr (.inl ⟨.inl hc, h.alive ha⟩), fun hw => by
    rw [hc] at hw
    cases hw⟩

/-- The steps after which every process is where it was, apart from the processor. -/
def Act.quiet : Act → Bool
  | .forkStack _ ok => ok
  | .yield _ | .wakeup _ | .kill .. | .setpriority .. | .fault _ | .enter _ | .turn _ | .tick => true
  | _ => false

/-- A quiet step leaves every process where it is. -/
theorem Sys.Change.stays {a : Act} {x : Proc} (h : s.Change a s' p x) (hI : s.Inv)
    (ha : a.quiet) : (s.t.proc p).Stays x := by
  cases h with
  | ranked hx =>
    obtain ⟨_, _, rfl, -⟩ := hx
    exact ⟨rfl, .inl rfl, fun h => ⟨h, rfl⟩⟩
  | made _ _ _ _ hx => exact hx ▸ ⟨rfl, .inl rfl, fun h => ⟨h, rfl⟩⟩
  | woken hst hx hpar =>
    obtain rfl := hpar.resolve_right (by
      rintro ⟨c, rfl⟩
      cases ha)
    rcases hst with rfl | ⟨hst, rfl⟩
    · exact hx ▸ ⟨rfl, .inl rfl, fun h => ⟨h, rfl⟩⟩
    · exact hx ▸ ⟨rfl, .inr ⟨.inr (.inr hst), .inl rfl⟩, by rintro ⟨⟩⟩
  | charged hch hc hst hx =>
    obtain ⟨_, _, e⟩ := (s.t.proc p).charged_eq s.t.ticks _ _
    have hrun : (s.t.proc p).Alive := .inr (.inl (hI.running _ _ _ hc))
    cases a with
    | yield c' =>
      obtain rfl := of_decide_eq_true hch
      obtain rfl := hst.resolve_right fun h => h.2 rfl
      exact hx ▸ e ▸ ⟨rfl, .inr ⟨hrun, .inl rfl⟩, by rintro ⟨⟩⟩
    | sleep | wait => cases ha
    | _ => cases hch
  | killed _ _ hx =>
    rw [hx, Proc.marked]
    split
    · next hs => exact ⟨rfl, .inr ⟨.inr (.inr hs), .inl rfl⟩, by rintro ⟨⟩⟩
    · exact ⟨rfl, .inl rfl, fun h => ⟨h, rfl⟩⟩
  | dispatched _ hq hr hx =>
    obtain ⟨_, _, rfl, -⟩ := hr
    exact hx ▸ ⟨rfl, .inr ⟨.inl hq, .inr (.inl rfl)⟩, by rintro ⟨⟩⟩
  | given _ he =>
    rcases he with ⟨rfl, -⟩ | ⟨rfl, -⟩ <;> cases ha
  | taken e | exited e | reaped e | copied _ _ _ e | ready _ _ _ e =>
    rw [e] at ha
    cases ha

/-- The family after a step in which every process keeps its parent and its place. -/
theorem Sys.Family.keep (h : s.Family) (hi : s'.t.initproc = s.t.initproc)
    (hk : ∀ q, s.Keeps s' q) : s'.Family where
  init := by
    obtain ⟨i, hi', ha, hp⟩ := h.init
    exact ⟨i, hi.trans hi', (hk i).alive ha, (hk i).parent.trans hp⟩
  alive q r hr := (hk r).alive (h.alive q r ((hk q).parent.symm.trans hr))
  self q hq := h.self q ((hk q).parent.symm.trans hq)
  child q hq hu he := by
    rw [(hk q).parent]
    rw [hi] at hq
    rcases (hk q).state with hs | ⟨ha, -⟩
    · refine h.child q hq (hs ▸ hu) fun hs' => ?_
      obtain ⟨p, hp⟩ := he (hs.trans hs')
      rcases (hk p).cont with hc | ⟨hc | hc | hc, -⟩ | ⟨np, -, hc⟩
      · exact ⟨p, hc.symm.trans hp⟩
      all_goals
        rw [hc] at hp
        cases hp
    · exact h.child q hq ha.not_unused fun he' => absurd he' ha.not_embryo
  orphan q hq := by
    rw [(hk q).parent]
    refine h.orphan q ?_
    rwa [← (hk q).state_eq fun ha => ha.not_unused hq]
  fresh p np hp := by
    rw [(hk np).parent]
    rcases (hk p).cont with hc | ⟨hc | hc | hc, -⟩ | ⟨np0, hc, hc'⟩
    · exact h.fresh p np (hc ▸ hp)
    · rw [hc] at hp
      rcases hp with hp | hp <;> cases hp
    · rw [hc] at hp
      rcases hp with hp | hp <;> cases hp
    · rw [hc] at hp
      rcases hp with hp | hp <;> cases hp
    · rw [hc'] at hp
      rcases hp with hp | hp
      · cases hp
      · cases hp
        exact h.fresh p np (.inl hc)
  inside p hp := by
    rcases (hk p).cont with hc | ⟨-, ha⟩ | ⟨np, hc, -⟩
    · exact (hk p).alive (h.inside p (hc ▸ hp))
    · exact ha
    · exact (hk p).alive (h.inside p (hc.trans_ne nofun))
  waiting p hc hs := by
    have hold : ∀ z, (s'.t.proc z).state = .zombie → (s.t.proc z).state = .zombie := fun z hz =>
      ((hk z).state_eq fun ha => ha.not_zombie hz).symm.trans hz
    rcases (hk p).waiting hc hs with ⟨hc', hs', hch⟩ | ⟨hch, hno⟩
    · obtain ⟨hch', hno⟩ := h.waiting p hc' hs'
      exact ⟨hch.trans hch', fun z hz => (hk z).parent ▸ hno z (hold z hz)⟩
    · exact ⟨hch, fun z hz => (hk z).parent ▸ hno z (hold z hz)⟩

/-! ## Steps that replace a slot that is not alive -/

/-- A living process `y` gets on with `fork` or `wait`, and the fields of a slot `x` that is not alive
become `q`. -/
structure Sys.Replaces (s s' : Sys) (y x : Slot) (q : Proc) (k : Cont) : Prop where
  proc : s'.t.proc = update s.t.proc x q
  initproc : s'.t.initproc = s.t.initproc
  cont : s'.cont = update s.cont y k
  alive : (s.t.proc y).Alive
  dead : ¬ (s.t.proc x).Alive
  place : k = .other ∨ k = .alloc x ∨ k = .copied x
  state : q.state ≠ .zombie ∧ q.state ≠ .sleeping
  parent : ∀ r, q.parent = some r → (s.t.proc r).Alive
  child : q.state ≠ .unused → (q.state = .embryo → k = .copied x) → q.parent ≠ none
  orphan : q.state = .unused → q.parent = none
  fresh : ∀ p, s'.cont p = .alloc x ∨ s'.cont p = .fork x → q.parent = none
  maker : ∀ p, s.cont p = .copied x → p = y

section
variable {y x : Slot} {q : Proc} {k : Cont}

section
variable (h : s.Replaces s' y x q k)
include h

theorem Sys.Replaces.ne {r : Slot} (hr : (s.t.proc r).Alive) :
    r ≠ x := fun e => h.dead (e ▸ hr)

theorem Sys.Replaces.proc_of_ne {r : Slot} (hr : r ≠ x) :
    s'.t.proc r = s.t.proc r := by
  rw [h.proc, update_of_ne hr]

theorem Sys.Replaces.proc_self : s'.t.proc x = q := by
  rw [h.proc, update_self]

theorem Sys.Replaces.proc_alive {r : Slot} (hr : (s.t.proc r).Alive) :
    s'.t.proc r = s.t.proc r := h.proc_of_ne (h.ne hr)

end

/-- The family after `fork` has taken a slot or given it back, or `wait` has reaped it. -/
theorem Sys.Family.replace (h : s.Family) (hr : s.Replaces s' y x q k) : s'.Family where
  init := by
    obtain ⟨i, hi, ha, hp⟩ := h.init
    refine ⟨i, hr.initproc.trans hi, ?_⟩
    rw [hr.proc_alive ha]
    exact ⟨ha, hp⟩
  alive r r' hp := by
    have ha : (s.t.proc r').Alive := by
      rcases eq_or_ne r x with rfl | hne
      · exact hr.parent r' (by rwa [hr.proc_self] at hp)
      · exact h.alive r r' (by rwa [hr.proc_of_ne hne] at hp)
    rwa [hr.proc_alive ha]
  self r hp := by
    rcases eq_or_ne r x with rfl | hne
    · exact hr.dead (hr.parent r (by rwa [hr.proc_self] at hp))
    · exact h.self r (by rwa [hr.proc_of_ne hne] at hp)
  child r hi hu he := by
    rcases eq_or_ne r x with rfl | hne
    · rw [hr.proc_self] at hu he ⊢
      refine hr.child hu fun hs => ?_
      obtain ⟨p, hp⟩ := he hs
      rw [hr.cont] at hp
      rcases eq_or_ne p y with rfl | hpy
      · rwa [update_self] at hp
      · rw [update_of_ne hpy] at hp
        exact absurd (hr.maker p hp) hpy
    · rw [hr.proc_of_ne hne] at hu he ⊢
      refine h.child r (hr.initproc ▸ hi) hu fun hs => ?_
      obtain ⟨p, hp⟩ := he hs
      rw [hr.cont] at hp
      rcases eq_or_ne p y with rfl | hpy
      · rw [update_self] at hp
        rcases hr.place with e | e | e
        all_goals
          rw [hp] at e
          cases e
        exact absurd rfl hne
      · exact ⟨p, by rwa [update_of_ne hpy] at hp⟩
  orphan r hu := by
    rcases eq_or_ne r x with rfl | hne
    · rw [hr.proc_self] at hu ⊢
      exact hr.orphan hu
    · rw [hr.proc_of_ne hne] at hu ⊢
      exact h.orphan r hu
  fresh p np hp := by
    rcases eq_or_ne np x with rfl | hne
    · rw [hr.proc_self]
      exact hr.fresh p hp
    · rw [hr.proc_of_ne hne]
      rw [hr.cont] at hp
      rcases eq_or_ne p y with rfl | hpy
      · rw [update_self] at hp
        rcases hr.place with e | e | e <;> rw [e] at hp <;> rcases hp with hp | hp <;> cases hp
        exact absurd rfl hne
      · rw [update_of_ne hpy] at hp
        exact h.fresh p np hp
  inside p hp := by
    have ha : (s.t.proc p).Alive := by
      rw [hr.cont] at hp
      rcases eq_or_ne p y with rfl | hpy
      · exact hr.alive
      · exact h.inside p (by rwa [update_of_ne hpy] at hp)
    rwa [hr.proc_alive ha]
  waiting p hc hs := by
    have hpx : p ≠ x := by
      rintro rfl
      rw [hr.proc_self] at hs
      exact hr.state.2 hs
    rw [hr.proc_of_ne hpx] at hs ⊢
    rw [hr.cont] at hc
    have hpy : p ≠ y := by
      rintro rfl
      rw [update_self] at hc
      rcases hr.place with e | e | e <;> rw [hc] at e <;> cases e
    rw [update_of_ne hpy] at hc
    obtain ⟨hch, hno⟩ := h.waiting p hc hs
    refine ⟨hch, fun z hz => ?_⟩
    have hzx : z ≠ x := by
      rintro rfl
      rw [hr.proc_self] at hz
      exact hr.state.1 hz
    rw [hr.proc_of_ne hzx] at hz ⊢
    exact hno z hz

end

/-! ## Exit -/

/-- The parents after `exit`, in a table where no unused slot has one. -/
theorem exitProcs_parent {init : Option Slot} {proc : Slot → Proc} {q : Slot}
    (hq : (proc q).state = .unused → (proc q).parent = none) :
    (exitProcs p init proc q).parent =
      if (proc q).parent = some p then init else (proc q).parent := by
  have hadopt : ∀ r : Proc, (r.state = .unused → r.parent = none) →
      (if r.state = .unused then r else r.adopted p init).parent =
        if r.parent = some p then init else r.parent := by
    intro r hr
    unfold Proc.adopted
    split
    · next hu => rw [if_neg (by simp [hr hu])]
    · split <;> rfl
  have hw := hadopt ((proc q).woken (.ofPtr (proc p).parent)) (by
    rw [Proc.woken_parent]
    intro hu
    refine hq (((Proc.wakes_woken _ _).resolve_right fun h => ?_).symm.trans hu)
    rw [h.2] at hu
    cases hu)
  rw [Proc.woken_parent] at hw
  unfold exitProcs reparented
  dsimp only
  split
  · rw [Proc.woken_parent, hw]
  · exact hw

theorem Proc.woken_chan (chan : Chan) (q : Proc) : (q.woken chan).chan = q.chan := by
  unfold woken
  split <;> rfl

theorem Proc.adopted_chan (init : Option Slot) (q : Proc) : (q.adopted p init).chan = q.chan := by
  unfold adopted
  split <;> rfl

/-- Who still sleeps after a wakeup slept on another channel. -/
theorem Proc.woken_sleeping {chan : Chan} {q : Proc} (h : (q.woken chan).state = .sleeping) :
    q.state = .sleeping ∧ q.chan ≠ chan := by
  unfold woken at h
  split at h
  · cases h
  · next hno => exact ⟨h, fun hc => hno ⟨h, hc⟩⟩

/-- Who still sleeps after `exit` slept neither on the parent nor, if a zombie was passed to it, on
`initproc`. -/
theorem exitProcs_sleeping {init : Option Slot} {proc : Slot → Proc} {q : Slot}
    (h : (exitProcs p init proc q).state = .sleeping) :
    (proc q).state = .sleeping ∧ (exitProcs p init proc q).chan = (proc q).chan ∧
      (proc q).chan ≠ .ofPtr (proc p).parent ∧
      ((∃ z, (proc z).state = .zombie ∧ (proc z).parent = some p) →
        (proc q).chan ≠ .ofPtr init) := by
  have hex : (∃ z, ((proc z).woken (.ofPtr (proc p).parent)).state = .zombie ∧
      ((proc z).woken (.ofPtr (proc p).parent)).parent = some p) ↔
      ∃ z, (proc z).state = .zombie ∧ (proc z).parent = some p := by
    simp only [Proc.woken_zombie, Proc.woken_parent]
  have hr : ∀ r : Proc, (if r.state = .unused then r else r.adopted p init).state = r.state ∧
      (if r.state = .unused then r else r.adopted p init).chan = r.chan := by
    intro r
    split
    · exact ⟨rfl, rfl⟩
    · exact ⟨Proc.adopted_state .., Proc.adopted_chan ..⟩
  obtain ⟨hst, hch⟩ := hr ((proc q).woken (.ofPtr (proc p).parent))
  rw [Proc.woken_chan] at hch
  unfold exitProcs reparented at h ⊢
  simp only [hex] at h ⊢
  split at h
  · next hz =>
    obtain ⟨h', hne⟩ := Proc.woken_sleeping h
    obtain ⟨hs, hne'⟩ := Proc.woken_sleeping (hst.symm.trans h')
    rw [hch] at hne
    rw [if_pos hz, Proc.woken_chan, hch]
    exact ⟨hs, rfl, hne', fun _ => hne⟩
  · next hz =>
    obtain ⟨hs, hne'⟩ := Proc.woken_sleeping (hst.symm.trans h)
    rw [if_neg hz, hch]
    exact ⟨hs, rfl, hne', fun h => absurd h hz⟩

theorem Proc.Wakes.alive {q q' : Proc} (h : q.Wakes q') (hq : q.Alive) : q'.Alive := by
  rcases h with h | ⟨-, h⟩
  · rwa [Proc.Alive, h]
  · exact .inl h

/-- Fields that only a wakeup changed are those of a process in the same state, unless it was
asleep. -/
theorem Proc.Wakes.state_eq {q q' : Proc} (h : q.Wakes q') (hq : q'.state ≠ .runnable) :
    q.state = q'.state :=
  (h.resolve_right fun h' => hq h'.2).symm

/-- A running process other than `initproc` has exited. -/
structure Sys.Exits (s s' : Sys) (p : Slot) : Prop where
  running : (s.t.proc p).state = .running
  other : s.cont p = .other
  notInit : some p ≠ s.t.initproc
  init : s'.t.initproc = s.t.initproc
  cont : s'.cont = s.cont
  proc : s'.t.proc = update (exitProcs p s.t.initproc s.t.proc) p
    ((exitProcs p s.t.initproc s.t.proc p).exited s.t.ticks)

section
variable {i q r : Slot} (he : s.Exits s' p)
include he

theorem Sys.Exits.zombie : (s'.t.proc p).state = .zombie := by
  rw [he.proc, update_self]
  rfl

theorem Sys.Exits.proc_of_ne (hq : q ≠ p) : s'.t.proc q = exitProcs p s.t.initproc s.t.proc q := by
  rw [he.proc, update_of_ne hq]

/-- The others are as before, or have been woken. -/
theorem Sys.Exits.wakes (hq : q ≠ p) : (s.t.proc q).Wakes (s'.t.proc q) := by
  rw [he.proc_of_ne hq]
  exact exitProcs_wakes q

theorem Sys.Exits.ne_init (hinit : s.t.initproc = some i) : i ≠ p := by
  rintro rfl
  exact he.notInit hinit.symm

/-- A process whose continuation is not the plain one is another process. -/
theorem Sys.Exits.ne_of_cont (hc : s'.cont q ≠ .other) : q ≠ p := by
  rintro rfl
  rw [he.cont] at hc
  exact hc he.other

variable (h : s.Family) (hinit : s.t.initproc = some i)
include h hinit

/-- The children of the process are now those of `initproc`. -/
theorem Sys.Exits.parent_eq (q : Slot) : (s'.t.proc q).parent =
    if (s.t.proc q).parent = some p then some i else (s.t.proc q).parent := by
  rw [he.proc, ← hinit, ← exitProcs_parent (h.orphan q)]
  rcases eq_or_ne q p with rfl | hq
  · rw [update_self, Proc.exited_parent]
  · rw [update_of_ne hq]

theorem Sys.Exits.alive (hia : (s.t.proc i).Alive) (hr : (s'.t.proc q).parent = some r) :
    (s'.t.proc r).Alive := by
  rw [he.parent_eq h hinit] at hr
  split at hr
  · cases hr
    exact (he.wakes (he.ne_init hinit)).alive hia
  · next hrp =>
    have hne : r ≠ p := by
      rintro rfl
      exact hrp hr
    exact (he.wakes hne).alive (h.alive q r hr)

/-- A process in use still has a parent. -/
theorem Sys.Exits.child (hq : some q ≠ s.t.initproc) (hu : (s'.t.proc q).state ≠ .unused)
    (hemb : (s'.t.proc q).state = .embryo → ∃ p', s'.cont p' = .copied q) :
    (s'.t.proc q).parent ≠ none := by
  rw [he.parent_eq h hinit]
  split
  · exact nofun
  rcases eq_or_ne q p with rfl | hqp
  · exact h.child q hq (he.running.trans_ne nofun) fun hs => absurd (he.running.symm.trans hs) nofun
  have hwakes := he.wakes hqp
  refine h.child q hq (fun hu' => ?_) fun hs' => ?_
  · rcases hwakes with hs | hs
    · exact hu (hs.trans hu')
    · exact absurd (hs.1.symm.trans hu') nofun
  · rcases hwakes with hs | hs
    · rw [he.cont] at hemb
      exact hemb (hs.trans hs')
    · exact absurd (hs.1.symm.trans hs') nofun

/-- Whoever waits has no zombie: the process has woken its parent, and `initproc` if there was a zombie
among the children. -/
theorem Sys.Exits.waiting (hc : s'.cont q = .wait) (hs : (s'.t.proc q).state = .sleeping) :
    (s'.t.proc q).chan = .proc q ∧
      ∀ z, (s'.t.proc z).state = .zombie → (s'.t.proc z).parent ≠ some q := by
  have hqp : q ≠ p := he.ne_of_cont (hc.trans_ne nofun)
  rw [he.cont] at hc
  rw [he.proc_of_ne hqp] at hs ⊢
  obtain ⟨hs', hch', hparent, hzombie⟩ := exitProcs_sleeping hs
  obtain ⟨hch, hno⟩ := h.waiting q hc hs'
  rw [hch] at hparent hzombie
  refine ⟨hch'.trans hch, fun z hz hzq => ?_⟩
  rw [he.parent_eq h hinit] at hzq
  rcases eq_or_ne z p with rfl | hzp
  · rw [if_neg (h.self z)] at hzq
    rw [hzq] at hparent
    exact hparent rfl
  have hz' : (s.t.proc z).state = .zombie := ((he.wakes hzp).state_eq (hz.trans_ne nofun)).trans hz
  split at hzq
  · next hzc =>
    cases hzq
    refine hzombie ⟨z, hz', hzc⟩ ?_
    rw [hinit]
    rfl
  · exact hno z hz' hzq

end

/-- `exit` passes the children on before the process becomes a zombie, and wakes whoever might wait
for a zombie that is now his. -/
theorem Sys.Family.exit (h : s.Family) (he : s.Exits s' p) : s'.Family := by
  obtain ⟨i, hinit, hia, hin⟩ := h.init
  have hpar := he.parent_eq h hinit
  refine ⟨⟨i, he.init.trans hinit, (he.wakes (he.ne_init hinit)).alive hia, ?_⟩,
    fun q r hr => he.alive h hinit hia hr, fun q hq => ?_,
    fun q hq hu hemb => he.child h hinit (he.init ▸ hq) hu hemb, fun q hu => ?_, fun p' np hc => ?_,
    fun p' hc => ?_, fun p' hc hs => he.waiting h hinit hc hs⟩
  · rw [hpar, hin, if_neg nofun]
  · rw [hpar] at hq
    split at hq
    · next hqp =>
      cases hq
      cases hin.symm.trans hqp
    · exact h.self q hq
  · have hqp : q ≠ p := by
      rintro rfl
      cases he.zombie.symm.trans hu
    have hu' : (s.t.proc q).state = .unused :=
      ((he.wakes hqp).state_eq (hu.trans_ne nofun)).trans hu
    rw [hpar, h.orphan q hu', if_neg nofun]
  · rw [he.cont] at hc
    rw [hpar, h.fresh p' np hc, if_neg nofun]
  · have hpp := he.ne_of_cont hc
    rw [he.cont] at hc
    exact (he.wakes hpp).alive (h.inside p' hc)

/-! ## One step -/

/-- A running process goes to sleep, in `wait` or elsewhere. -/
theorem Sys.Family.sleeps {k : Cont} (chan : Chan) (h : s.Family)
    (hrun : (s.t.proc p).state = .running)
    (hk : k = .asleep ∨ k = .wait ∧ chan = .proc p ∧
      ∀ z, (s.t.proc z).state = .zombie → (s.t.proc z).parent ≠ some p)
    (hi : s'.t.initproc = s.t.initproc) (hcont : s'.cont = update s.cont p k)
    (hproc : s'.t.proc = update s.t.proc p ((s.t.proc p).slept s.t.ticks chan)) :
    s'.Family := by
  refine h.keep hi fun q => ?_
  rcases eq_or_ne q p with rfl | hq
  · obtain ⟨x, y, z, e⟩ := (s.t.proc q).slept_eq s.t.ticks chan
    have hself := congrFun hproc q
    rw [update_self, e] at hself
    have hcq : s'.cont q = k := by rw [hcont, update_self]
    have halive : (s'.t.proc q).Alive := .inr (.inr (by rw [hself]))
    refine ⟨by rw [hself], .inr ⟨.inr (.inl hrun), halive⟩,
      .inr (.inl ⟨?_, halive⟩), fun hw _ => .inr ?_⟩
    · rw [hcq]
      exact .inr (hk.imp_right And.left)
    · rw [hcq] at hw
      rcases hk with rfl | ⟨-, rfl, hno⟩
      · cases hw
      · exact ⟨by rw [hself], hno⟩
  · refine Proc.Stays.keeps ?_ (by rw [hcont, update_of_ne hq])
    rw [hproc, update_of_ne hq]
    exact .refl _

/-- A process that gets the processor leaves `sleep` unless it is in `wait`. -/
theorem Proc.Stays.resumes {s1 : Sys} {c : Fin NCPU} {b : Bool} {q : Slot}
    (h : (s.t.proc q).Stays ((s1.resume c p b).t.proc q)) (h1 : s1.cont = s.cont)
    (ha : (s.t.proc p).Alive) : s.Keeps (s1.resume c p b) q := by
  rcases Sys.resume_eq (s := s1) (c := c) (p := p) b with ⟨-, hc, -⟩ | ⟨-, ⟨-, hc⟩ | ⟨-, hc⟩⟩
  · exact h.keeps (by rw [hc, h1])
  · exact h.keeps (by rw [hc, h1])
  · rcases eq_or_ne q p with rfl | hq
    · exact h.leaves ha (by rw [hc, update_self])
    · exact h.keeps (by rw [hc, update_of_ne hq, h1])

/-- Every step keeps the invariant. -/
theorem Sys.Family.step {a : Act} (h : s.Family) (hI : s.Inv) (ht : s.Trans a s') : s'.Family := by
  have hrun : ∀ {c p b}, s.cpu c = .run p b → (s.t.proc p).state = .running := fun hc =>
    hI.running _ _ _ hc
  have halive : ∀ {c p b}, s.cpu c = .run p b → (s.t.proc p).Alive := fun hc =>
    .inr (.inl (hrun hc))
  have hdead : ∀ {np}, (s.t.proc np).state = .embryo → ¬ (s.t.proc np).Alive := fun he ha =>
    ha.not_embryo he
  have hown : ∀ {p p' np}, (s.cont p).embryo? = some np → (s.cont p').embryo? = some np →
      p' = p := fun h1 h2 => hI.owner _ _ _ h2 h1
  -- no other process has the embryo after the step either
  have hother : ∀ {p np k p'}, (s.cont p).embryo? = some np →
      (s.setCont p k).cont p' = .alloc np ∨ (s.setCont p k).cont p' = .fork np → p' = p := by
    intro p np k p' he hp'
    rcases eq_or_ne p' p with rfl | hne
    · rfl
    · simp only [setCont, update_of_ne hne] at hp'
      exact hown he (by rcases hp' with hp' | hp' <;> rw [hp'] <;> rfl)
  have hstay (q) (ha : a.quiet) := (ht.change hI q).stays hI ha
  cases ht with
  | forkFull hc hl ho => exact h
  | @fork c p b np k hc hl ho hnp =>
    refine h.replace (y := p) (x := np) (k := .alloc np) ⟨rfl, rfl, rfl, halive hc,
      fun ha => ha.not_unused hnp, .inr (.inl rfl), by simp, fun r hr => h.alive np r hr,
      fun _ he => absurd (he rfl) (by simp), by rintro ⟨⟩, fun _ _ => h.orphan np hnp,
      fun p' hp' => ?_⟩
    have he := hI.embryo p' np (by rw [hp']; rfl)
    rw [hnp] at he
    cases he
  | @forkStack c p b np hc hp =>
    refine h.keep rfl fun q => ?_
    rcases eq_or_ne q p with rfl | hq
    · refine ⟨(hstay q rfl).parent, (hstay q rfl).state, .inr (.inr ⟨np, hp, by simp [setCont]⟩),
        fun hw => ?_⟩
      simp [setCont] at hw
    · exact (hstay q rfl).keeps (by simp [setCont, hq])
  | @forkImage c p b np hc hp =>
    have he : (s.cont p).embryo? = some np := by rw [hp]; rfl
    refine h.replace (y := p) (x := np) (k := .copied np) ⟨rfl, rfl, rfl, halive hc,
      hdead (hI.embryo p np he), .inr (.inr rfl), ?_, ?_, by simp, ?_, ?_, ?_⟩
    · rw [hI.embryo p np he]
      simp
    · rintro r hr
      cases hr
      exact halive hc
    · intro hu
      rw [hI.embryo p np he] at hu
      cases hu
    · intro p' hp'
      rw [hother he hp'] at hp'
      rcases hp' with hp' | hp' <;> simp [setCont] at hp'
    · exact fun p' hp' => hown he (by rw [hp']; rfl)
  | @forkFail _ c p b np k hc hl hp =>
    have he : (s.cont p).embryo? = some np := by
      rcases hp with ⟨-, hp⟩ | ⟨-, hp⟩ <;> rw [hp] <;> rfl
    have hnone : (s.t.proc np).parent = none := h.fresh p np (hp.imp And.right And.right)
    exact h.replace (y := p) (x := np) (k := .other) ⟨rfl, rfl, rfl, halive hc,
      hdead (hI.embryo p np he), .inl rfl, by simp, fun r hr => h.alive np r hr,
      fun hu => absurd rfl hu, fun _ => hnone, fun _ _ => hnone,
      fun p' hp' => hown he (by rw [hp']; rfl)⟩
  | @forkDone c p b np k hc hl hp =>
    have he : (s.cont p).embryo? = some np := by rw [hp]; rfl
    have hnp := hI.embryo p np he
    have hsome : (s.t.proc np).parent ≠ none := by
      refine h.child np (fun hi => ?_) (hnp.trans_ne (by decide)) fun _ => ⟨p, hp⟩
      obtain ⟨i, hi', ha, -⟩ := h.init
      rw [← hi, Option.some_inj] at hi'
      exact hdead hnp (hi' ▸ ha)
    refine h.replace (y := p) (x := np) (k := .other) ⟨rfl, rfl, rfl, halive hc, hdead hnp, .inl rfl,
      by simp, fun r hr => h.alive np r hr, fun _ _ => hsome, by rintro ⟨⟩, fun p' hp' => ?_,
      fun p' hp' => hown he (by rw [hp']; rfl)⟩
    rw [hother he hp'] at hp'
    rcases hp' with hp' | hp' <;> simp [setCont] at hp'
  | @exit c p b k hc hl ho hi =>
    exact h.exit ⟨hrun hc, ho, hi, by simp, by simp, by simp⟩
  | @reap c p b z k hc hw hz hpar heq =>
    refine h.replace (y := p) (x := z) (k := .other) ⟨rfl, rfl, rfl, halive hc,
      fun ha => ha.not_zombie hz, .inl rfl, by simp [Proc.reaped], by rintro _ ⟨⟩,
      fun hu => absurd rfl hu, fun _ => rfl, fun _ _ => rfl, fun p' hp' => ?_⟩
    have he := hI.embryo p' z (by rw [hp']; rfl)
    rw [hz] at he
    cases he
  | @waitFail c p b hc hw heq =>
    refine h.keep rfl fun q => ?_
    rcases eq_or_ne q p with rfl | hq
    · exact Proc.Stays.leaves (.refl (s.t.proc q)) (halive hc) (by simp [setCont])
    · exact Proc.Stays.keeps (.refl (s.t.proc q)) (by simp [setCont, hq])
  | @waitSleep c p b k hc hw hno =>
    exact h.sleeps (.proc p) (hrun hc) (.inr ⟨rfl, rfl, hno⟩) (by simp) (by simp [setCont]) (by simp)
  | @yield c p b k hc hl =>
    exact h.keep (by simp) fun q => (hstay q rfl).keeps (by simp)
  | @sleep c p b chan k hc hl ho =>
    exact h.sleeps chan (hrun hc) (.inl rfl) (by simp) (by simp [setCont]) (by simp)
  | @wakeup chan k hl | kill k hc hl ho hf | fault hc ho | enter hc hl | tick =>
    exact h.keep rfl fun q => (hstay q rfl).keeps rfl
  | setpriority hc hl ho hr | advance hc hl hr hi | pass hc hl hr =>
    exact h.keep hr.initproc fun q => (hstay q rfl).keeps rfl
  | dispatch k hc hl hr hp =>
    refine h.keep ?_ fun q => (hstay q rfl).resumes rfl (.inl ((hr.state _).symm.trans hp))
    exact (resume_t _).2.2.2.trans hr.initproc

/-! ## Whole runs -/

/-- After `userinit` the first process is the only one, and has no parent. -/
theorem family_booted : (Sys.init booted).Family := by
  have hnone : ∀ q, (booted.proc q).parent = none := fun q => by
    rw [booted_proc]
    split <;> rfl
  refine ⟨⟨initSlot, by decide +kernel, .inl (by decide +kernel), hnone _⟩,
    fun q r hr => absurd ((hnone q).symm.trans hr) nofun,
    fun q hr => absurd ((hnone q).symm.trans hr) nofun, fun q hq hu _ => ?_, fun q _ => hnone q,
    fun p np _ => hnone np, fun p hp => absurd rfl hp, fun p => nofun⟩
  have huse : ∀ q, (booted.proc q).state ≠ .unused → some q = booted.initproc := by decide +kernel
  exact absurd (huse q hu) hq

theorem Sys.Reachable.family (h : s.Reachable) : s.Family := by
  induction h with
  | init ht =>
    rw [userinit_eq] at ht
    cases ht
    exact family_booted
  | step hs hstep ih => exact ih.step hs.inv (hs.inv.trans hstep)

/-- A zombie stays one until a `wait` of its parent frees it. -/
theorem Sys.Change.zombie {a : Act} {z : Slot} {x : Proc} (hI : s.Inv) (h : s.Change a s' z x)
    (hz : (s.t.proc z).state = .zombie) : x.state = .zombie ∨
    ∃ c p b k, a = .wait c ∧ s.cpu c = .run p b ∧ (s.t.proc z).parent = some p ∧
      s'.t = s.t.put (update s.t.proc z (s.t.proc z).reaped) k ∧
      wait p s.t = .ok (.ret (s.t.proc z).pid.toInt32, s'.t) := by
  cases h with
  | @reaped c p b k ha hc _ hpar ht hw _ => exact .inr ⟨c, p, b, k, ha, hc, hpar, ht, hw⟩
  | ranked hx =>
    obtain ⟨_, _, rfl, -⟩ := hx
    exact .inl hz
  | woken hst hx =>
    refine .inl (hx ▸ (hst.resolve_right fun h => ?_).trans hz)
    cases hz.symm.trans h.1
  | exited _ _ hx => exact .inl (hx ▸ rfl)
  | killed _ _ hx => exact .inl (by rw [hx, Proc.marked, hz]; rfl)
  | charged _ hc _ _ => cases hz.symm.trans (hI.running _ _ _ hc)
  | taken _ _ hq _ | made _ _ _ hq _ | copied _ hq _ | given _ _ hq _ | ready _ hq _
  | dispatched _ hq _ _ => cases hz.symm.trans hq

/-- In every reachable state: a process other than `initproc` that is in use has a parent that is in
use and no zombie, from the moment `fork` has set it; a zombie stays one until a `wait` of its parent
frees it, and only it, and returns its pid as an `int`; to a process without a zombie child whose pid
is `-1` as an `int`, `wait` returns `-1` only if it has no children or is killed; and a process that
sleeps in `wait`, on itself, has no zombie child. -/
theorem exit_wait_protocol (h : s.Reachable) :
    (∀ q, some q ≠ s.t.initproc → (s.t.proc q).state ≠ .unused →
      ((s.t.proc q).state = .embryo → ∃ p, s.cont p = .copied q) →
      ∃ r, (s.t.proc q).parent = some r ∧ (s.t.proc r).state ≠ .unused ∧
        (s.t.proc r).state ≠ .zombie) ∧
    (∀ a s' z, s.step a = .ok s' → (s.t.proc z).state = .zombie → (s'.t.proc z).state ≠ .zombie →
      ∃ c p b, a = .wait c ∧ s.cpu c = .run p b ∧ (s.t.proc z).parent = some p ∧
        wait p s.t = .ok (.ret (s.t.proc z).pid.toInt32, s'.t) ∧ (s'.t.proc z).state = .unused ∧
        ∀ q, q ≠ z → s'.t.proc q = s.t.proc q) ∧
    (∀ c p b t', s.cpu c = .run p b →
      (∀ z, (s.t.proc z).state = .zombie → (s.t.proc z).parent = some p →
        (s.t.proc z).pid ≠ 0xffffffff) →
      wait p s.t = .ok (.ret (-1), t') →
        (∀ q, (s.t.proc q).parent ≠ some p) ∨ (s.t.proc p).killed) ∧
    ∀ p, s.cont p = .wait → (s.t.proc p).state = .sleeping →
      (s.t.proc p).chan = .proc p ∧
        ∀ z, (s.t.proc z).state = .zombie → (s.t.proc z).parent ≠ some p := by
  have hF := h.family
  refine ⟨fun q hi hu he => ?_, fun a s' z hs hz hz' => ?_, fun c p b t' hc hpid hw => ?_,
    hF.waiting⟩
  · obtain ⟨r, hr⟩ := Option.ne_none_iff_exists'.1 (hF.child q hi hu he)
    have ha := hF.alive q r hr
    exact ⟨r, hr, ha.not_unused, ha.not_zombie⟩
  · obtain ⟨c, p, b, k, rfl, hc, hpar, ht, hw⟩ :=
      ((h.inv.change hs z).zombie h.inv hz).resolve_left hz'
    refine ⟨c, p, b, rfl, hc, hpar, hw, ?_, fun q hq => ?_⟩
    · rw [ht, PTable.put_proc, update_self]
      rfl
    · rw [ht, PTable.put_proc, update_of_ne hq]
  · obtain ⟨L, hL⟩ := h.inv.table
    rcases wait_spec hL (h.inv.running c p b hc) with
      ⟨z, k, L', hz, hpar, -, heq⟩ | ⟨-, hno⟩ | ⟨k, L', -, -, heq⟩
    · rw [heq] at hw
      have hret : (s.t.proc z).pid.toInt32 = -1 := by
        injection hw with hw
        injection hw with hw
        injection hw
      exact absurd (by rw [← UInt32.toUInt32_toInt32 (s.t.proc z).pid, hret]; rfl) (hpid z hz hpar)
    · refine hno.imp_left fun hno q hq => hno q (fun hu => ?_) hq
      rw [hF.orphan q hu] at hq
      cases hq
    · rw [heq] at hw
      cases hw

/-- The first process forks, and its child exits. -/
def forkExitRun : List Act :=
  [Act.enter cpu0, .turn cpu0] ++ forkActs cpu0 ++ [.yield cpu0, .turn cpu0, .exit cpu0, .turn cpu0]

/-- After that run there is a zombie, and the `wait` of the first process frees it. -/
theorem exit_wait_protocol_forkExitRun :
    ∃ s s' z, (Sys.init booted).run forkExitRun = .ok s ∧ s.step (.wait cpu0) = .ok s' ∧
      (s.t.proc z).state = .zombie ∧ ∃ p, (s.t.proc z).parent = some p ∧
        wait p s.t = .ok (.ret (s.t.proc z).pid.toInt32, s'.t) ∧ (s'.t.proc z).state = .unused := by
  have hrun : ((Sys.init booted).run forkExitRun).toOption.any (fun s =>
      decide ((s.t.proc childSlot).state = .zombie) && (s.step (.wait cpu0)).toOption.any fun s' =>
        decide ((s'.t.proc childSlot).state ≠ .zombie)) = true := by
    decide +kernel
  obtain ⟨s, hs, hf⟩ := exists_ok hrun
  rw [Bool.and_eq_true, decide_eq_true_eq] at hf
  obtain ⟨s', hs', hz'⟩ := exists_ok hf.2
  have hr : s.Reachable := (Sys.Reachable.init userinit_eq).run hs
  obtain ⟨c, p, b, -, -, hpar, hw, hu, -⟩ := (exit_wait_protocol hr).2.1 (.wait cpu0) s' _ hs' hf.1
    (of_decide_eq_true hz')
  exact ⟨s, s', _, hs, hs', hf.1, p, hpar, hw, hu⟩

/-- The first process forks when the counter is at `2 ^ 32 - 1`, its child exits, and the `wait` that
frees the child returns `-1`. -/
theorem wait_minus_one_largestPid : ∃ (s : Sys) (t' : PTable), s.Reachable ∧
    s.cpu cpu0 = .run initSlot false ∧ wait initSlot s.t = .ok (.ret (-1), t') ∧
      (s.t.proc childSlot).parent = some initSlot ∧ ¬ (s.t.proc initSlot).killed ∧
      (t'.proc childSlot).state = .unused := by
  have hrun : (countedRun 0xffffffff (forkExitRun.drop 2)).toOption.any (fun s =>
      decide (s.cpu cpu0 = .run initSlot false ∧ (s.t.proc childSlot).parent = some initSlot ∧
        ¬ (s.t.proc initSlot).killed) && (wait initSlot s.t).toOption.any fun r =>
          decide (r.1 = .ret (-1) ∧ (r.2.proc childSlot).state = .unused)) = true := by
    decide +kernel
  obtain ⟨s, hs, hf⟩ := exists_ok hrun
  rw [Bool.and_eq_true, decide_eq_true_eq] at hf
  obtain ⟨hc, hpar, hkilled⟩ := hf.1
  obtain ⟨⟨_, t'⟩, hw, hr⟩ := exists_ok hf.2
  obtain ⟨rfl, hfree⟩ := of_decide_eq_true hr
  exact ⟨s, t', reachable_countedRun hs, hc, hw, hpar, hkilled, hfree⟩

end

end TronBoss
