import TronBoss.Proc.SectionSpec

/-!
# `exit` and `wait` keep the process-list invariant

The loops of `exit` that hand the children to `initproc` only write `parent` fields, which decide
no list; its loop over the zombie list calls `wakeup1` while it walks, which is harmless because
`wakeup1` touches the sleep and ready lists only.
-/

namespace TronBoss

open Lib Function List

variable {proc : Slot → Proc}

section
variable {t : PTable} {p y : Slot} {L : Lists} {init : Option Slot}

/-- Updating every process of a list without repetition, one after the other. -/
theorem foldl_modProc (f : Proc → Proc) : ∀ {xs : List Slot} {t : PTable}, xs.Nodup →
    xs.foldl (fun t p => t.modProc p f) t =
      { t with proc := fun q => if q ∈ xs then f (t.proc q) else t.proc q }
  | [], t, _ => by simp
  | x :: xs, t, h => by
    rw [List.nodup_cons] at h
    rw [List.foldl_cons, foldl_modProc f h.2]
    congr 1
    funext q
    by_cases e : q = x
    · subst e
      simp [h.1]
    · simp [e]

/-- The update loop over a list. -/
theorem PTable.forList_eq (hL : ListInv t.proc t.links L) (l : ListId)
    (f : Proc → Proc) : t.forList l f =
      .ok { t with proc := fun q => if q ∈ L l then f (t.proc q) else t.proc q } := by
  have hloop := forNodes_chain (fun t : PTable => t.links.next)
    (fun p t => t.modProc p f) (fun _ _ => rfl) (hL.chain l) (hL.holds.length_lt l)
  rw [forList, hloop, foldl_modProc f (hL.chain l).nodup]
  rfl

/-- The fields of a process after the exit of `p`, which may be its parent. -/
def Proc.adopted (p : Slot) (init : Option Slot) (q : Proc) : Proc :=
  if q.parent = some p then { q with parent := init } else q

@[simp] theorem Proc.adopted_state (p : Slot) (init : Option Slot) (q : Proc) :
    (q.adopted p init).state = q.state := by
  unfold adopted
  split <;> rfl

@[simp] theorem Proc.adopted_priority (p : Slot) (init : Option Slot) (q : Proc) :
    (q.adopted p init).priority = q.priority := by
  unfold adopted
  split <;> rfl

@[simp] theorem Proc.adopted_adopted (p : Slot) (init : Option Slot) (q : Proc) :
    (q.adopted p init).adopted p init = q.adopted p init := by
  unfold adopted
  split
  · split <;> rfl
  · rfl

theorem Proc.woken_zombie {chan : Chan} {q : Proc} :
    (q.woken chan).state = .zombie ↔ q.state = .zombie := by
  unfold woken
  split <;> simp_all

theorem Proc.woken_parent (chan : Chan) (q : Proc) : (q.woken chan).parent = q.parent := by
  unfold woken
  split <;> rfl

theorem Proc.adopted_woken (p : Slot) (init : Option Slot) (chan : Chan) (q : Proc) :
    (q.woken chan).adopted p init = (q.adopted p init).woken chan := by
  unfold woken adopted
  split <;> split <;> simp_all

@[simp] theorem Proc.woken_woken (chan : Chan) (q : Proc) :
    (q.woken chan).woken chan = q.woken chan := by
  unfold woken
  split <;> simp_all

/-- The processes after the children among `xs` were adopted. -/
def adoptOn (p : Slot) (init : Option Slot) (xs : List Slot) (proc : Slot → Proc) (q : Slot) :
    Proc :=
  if q ∈ xs then (proc q).adopted p init else proc q

theorem adoptOn_nil (p : Slot) (init : Option Slot) (proc : Slot → Proc) :
    adoptOn p init [] proc = proc := by
  funext q
  simp [adoptOn]

theorem adoptOn_append (p : Slot) (init : Option Slot) (xs ys : List Slot) (proc : Slot → Proc) :
    adoptOn p init ys (adoptOn p init xs proc) = adoptOn p init (xs ++ ys) proc := by
  funext q
  simp only [adoptOn, mem_append]
  split <;> split <;> simp_all

theorem adoptOn_singleton (p : Slot) (init : Option Slot) (y : Slot) (proc : Slot → Proc) :
    adoptOn p init [y] proc = update proc y ((proc y).adopted p init) := by
  funext q
  rcases eq_or_ne q y with rfl | hq
  · simp [adoptOn]
  · simp [adoptOn, hq]

/-- A child gets a new parent. -/
theorem adoptOn_child {t : PTable} {p : Slot} (h : (t.proc y).parent = some p) :
    (t.modProc y fun q => { q with parent := t.initproc }) =
      { t with proc := adoptOn p t.initproc [y] t.proc } := by
  rw [adoptOn_singleton, Proc.adopted, if_pos h]
  rfl

/-- No other process does. -/
theorem adoptOn_of_ne {p : Slot}
    (h : (proc y).parent ≠ some p) : adoptOn p init [y] proc = proc := by
  rw [adoptOn_singleton, Proc.adopted, if_neg h, update_eq_self]

theorem adoptOn_woken (p : Slot) (init : Option Slot) (xs : List Slot) (chan : Chan)
    (proc : Slot → Proc) : adoptOn p init xs (fun q => (proc q).woken chan) =
      fun q => (adoptOn p init xs proc q).woken chan := by
  funext q
  simp only [adoptOn]
  split
  · rw [Proc.adopted_woken]
  · rfl

/-- Adoption changes parents only, so the lists stay as they are. -/
theorem ListInv.adoptOn {k : Links} (hL : ListInv proc k L)
    (p : Slot) (init : Option Slot) (xs : List Slot) : ListInv (adoptOn p init xs proc) k L := by
  have hs : ∀ q, (TronBoss.adoptOn p init xs proc q).state = (proc q).state ∧
      (TronBoss.adoptOn p init xs proc q).priority = (proc q).priority := by
    intro q
    unfold TronBoss.adoptOn
    split <;> simp
  refine hL.congr (fun q => Proc.list?_congr (hs q).1 (hs q).2) fun q => ?_
  rw [(hs q).2]
  exact hL.bound q

/-- Adopting the children on one list changes `parent` fields only. -/
theorem adoptzombiechildren_eq (l : ListId) (hL : ListInv t.proc t.links L) :
    adoptzombiechildren l p t = .ok { t with proc := adoptOn p t.initproc (L l) t.proc } :=
  t.forList_eq hL l _

/-- The loop of `exit` over ready lists adopts the processes on them. -/
theorem adoptReady_eq : ∀ (is : List (Fin (MAX + 1))) {t : PTable} {L : Lists},
    ListInv t.proc t.links L → adoptReady p t is =
      .ok { t with proc := adoptOn p t.initproc (is.flatMap fun i => L (.ready i)) t.proc }
  | [], t, _, _ => by rw [adoptReady, List.flatMap_nil, adoptOn_nil]
  | i :: is, t, L, hL => by
    have hL1 := hL.adoptOn p t.initproc (L (.ready i))
    rw [adoptReady, adoptzombiechildren_eq (.ready i) hL, ok_bind,
      adoptReady_eq is (t := { t with proc := adoptOn p t.initproc (L (.ready i)) t.proc }) hL1]
    simp only [adoptOn_append, flatMap_cons]

/-- A wakeup wakes only. -/
theorem WakesOnly.woken {chan : Chan} {k : Links} :
    WakesOnly t { t with proc := fun q => (t.proc q).woken chan, links := k } := by
  intro q
  dsimp only [Proc.woken]
  split
  · next h => exact .inr ⟨h.1, rfl⟩
  · exact .inl rfl

/-- The processes after the turns of the loop of `exit` at the slots `ys`: the children among them
are adopted, and if one of them is a zombie then `initproc` is woken. -/
def reparentOn (p : Slot) (init : Option Slot) (ys : List Slot) (proc : Slot → Proc) (q : Slot) :
    Proc :=
  if ∃ z ∈ ys, (proc z).state = .zombie ∧ (proc z).parent = some p then
    (adoptOn p init ys proc q).woken (.ofPtr init)
  else adoptOn p init ys proc q

theorem reparentOn_nil (init : Option Slot) (proc : Slot → Proc) :
    reparentOn p init [] proc = proc := by
  funext q
  simp [reparentOn, adoptOn]

/-- The turn at one slot and those at the slots after it. -/
theorem reparentOn_cons {ys : List Slot} (hy : y ∉ ys) :
    reparentOn p init ys (reparentOn p init [y] proc) = reparentOn p init (y :: ys) proc := by
  -- the turn at `y` changes no other parent and makes no zombie
  have hother : ∀ z ∈ ys, ((reparentOn p init [y] proc z).state = .zombie ∧
      (reparentOn p init [y] proc z).parent = some p) ↔
        (proc z).state = .zombie ∧ (proc z).parent = some p := by
    intro z hz
    have hne : z ∉ [y] := by
      rw [mem_singleton]
      exact ne_of_mem_of_not_mem hz hy
    rw [reparentOn, adoptOn, if_neg hne]
    split
    · rw [Proc.woken_zombie, Proc.woken_parent]
    · rfl
  have hex : (∃ z ∈ ys, (reparentOn p init [y] proc z).state = .zombie ∧
      (reparentOn p init [y] proc z).parent = some p) ↔
        ∃ z ∈ ys, (proc z).state = .zombie ∧ (proc z).parent = some p :=
    exists_congr fun z => and_congr_right fun hz => hother z hz
  have hcons : (∃ z ∈ y :: ys, (proc z).state = .zombie ∧ (proc z).parent = some p) ↔
      (∃ z ∈ [y], (proc z).state = .zombie ∧ (proc z).parent = some p) ∨
        ∃ z ∈ ys, (proc z).state = .zombie ∧ (proc z).parent = some p := by
    simp
  have happ := adoptOn_append p init [y] ys proc
  funext q
  rw [reparentOn, ite_cond_congr (propext hex), reparentOn, ite_cond_congr (propext hcons)]
  rcases Classical.em (∃ z ∈ [y], (proc z).state = .zombie ∧ (proc z).parent = some p) with h | h
  · have hwoken : reparentOn p init [y] proc =
        fun q => (adoptOn p init [y] proc q).woken (.ofPtr init) := funext fun q => if_pos h
    rw [hwoken, adoptOn_woken, happ, Proc.woken_woken, ite_self]
    exact (if_pos (.inl h)).symm
  · have hsame : reparentOn p init [y] proc = adoptOn p init [y] proc := funext fun q => if_neg h
    rw [hsame, happ, ite_cond_congr (propext (or_iff_right h))]
    rfl

/-- The turn of the loop of `exit` at a zombie, which leaves the zombie list as it is. -/
theorem adoptZombie_spec (hL : ListInv t.proc t.links L) (hy : (t.proc y).state = .zombie) :
    ∃ k L', ListInv (reparentOn p t.initproc [y] t.proc) k L' ∧ L' .zombie = L .zombie ∧
      adoptZombie p y t =
        .ok { t with proc := reparentOn p t.initproc [y] t.proc, links := k } := by
  have hex : (∃ z ∈ [y], (t.proc z).state = .zombie ∧ (t.proc z).parent = some p) ↔
      (t.proc y).parent = some p := by
    simp [hy]
  unfold adoptZombie reparentOn
  simp only [hex]
  split
  · next hpar =>
    have hadopt := adoptOn_child hpar
    obtain ⟨k, L', hL', ho, heq⟩ := wakeup1_spec (t := { t with
      proc := adoptOn p t.initproc [y] t.proc }) (.ofPtr t.initproc) (hL.adoptOn p t.initproc [y])
    exact ⟨k, L', hL', ho .zombie nofun nofun, by rw [hadopt, heq]⟩
  · next hpar =>
    rw [adoptOn_of_ne hpar]
    exact ⟨t.links, L, hL, rfl, rfl⟩

/-- The loop of `exit` over the zombie list, at a suffix `ys` of it. -/
theorem adoptZombies_spec : ∀ {ys : List Slot} {fuel : Nat} {t : PTable} {L : Lists}
    (xs : List Slot), ListInv t.proc t.links L → L .zombie = xs ++ ys → ys.length < fuel →
    ∃ k L', ListInv (reparentOn p t.initproc ys t.proc) k L' ∧
      adoptZombies p fuel ys.head? t =
        .ok { t with proc := reparentOn p t.initproc ys t.proc, links := k }
  | [], fuel, t, L, xs, hL, _, hf => by
    obtain ⟨fuel, rfl⟩ := Nat.exists_eq_succ_of_ne_zero (Nat.ne_of_gt hf)
    rw [reparentOn_nil]
    exact ⟨t.links, L, hL, rfl⟩
  | y :: ys, fuel, t, L, xs, hL, hs, hf => by
    obtain ⟨fuel, rfl⟩ := Nat.exists_eq_succ_of_ne_zero (by omega : fuel ≠ 0)
    have hnd := (hL.chain .zombie).nodup
    rw [hs, nodup_append, nodup_cons] at hnd
    obtain ⟨k, L1, hL1, hz, h1⟩ := adoptZombie_spec (p := p) hL
      (hL.state (p := y) (l := .zombie) (by simp [hs]))
    rw [hs] at hz
    have hc := hL1.chain .zombie
    rw [hz] at hc
    have hnext : k.next y = ys.head? := hc.drop.2.head_eq
    obtain ⟨k', L', hL', h2⟩ := adoptZombies_spec (xs ++ [y])
      (t := { t with proc := reparentOn p t.initproc [y] t.proc, links := k }) hL1
      (by rw [hz, append_assoc, singleton_append]) (show ys.length < fuel by simpa using hf)
    dsimp only at hL' h2
    rw [reparentOn_cons hnd.2.1.1] at hL' h2
    refine ⟨k', L', hL', ?_⟩
    rw [head?_cons, adoptZombies, h1, ok_bind]
    dsimp only
    rw [hnext, h2]

/-- The processes after `exitReparent`. -/
def reparented (p : Slot) (init : Option Slot) (proc : Slot → Proc) (q : Slot) : Proc :=
  let r := if (proc q).state = .unused then proc q else (proc q).adopted p init
  if ∃ z, (proc z).state = .zombie ∧ (proc z).parent = some p then r.woken (.ofPtr init) else r

/-- The four loops over the other lists and the one over the zombie list cover every slot in use. -/
theorem reparentOn_adoptOn {xs zs : List Slot}
    (hxs : ∀ q, q ∈ xs ↔ (proc q).state ≠ .unused ∧ (proc q).state ≠ .zombie)
    (hzs : ∀ q, q ∈ zs ↔ (proc q).state = .zombie) :
    reparentOn p init zs (adoptOn p init xs proc) = reparented p init proc := by
  have hex : (∃ y ∈ zs, (adoptOn p init xs proc y).state = .zombie ∧
      (adoptOn p init xs proc y).parent = some p) ↔
      ∃ z, (proc z).state = .zombie ∧ (proc z).parent = some p := by
    refine exists_congr fun z => ?_
    rw [hzs]
    constructor
    · rintro ⟨hz, -, hp⟩
      rw [adoptOn, if_neg fun h => ((hxs z).1 h).2 hz] at hp
      exact ⟨hz, hp⟩
    · rintro ⟨hz, hp⟩
      rw [adoptOn, if_neg fun h => ((hxs z).1 h).2 hz]
      exact ⟨hz, hz, hp⟩
  have hmem : ∀ q, q ∈ xs ++ zs ↔ (proc q).state ≠ .unused := by
    intro q
    rw [mem_append, hxs, hzs]
    cases (proc q).state <;> simp
  funext q
  have hq : adoptOn p init zs (adoptOn p init xs proc) q =
      if (proc q).state = .unused then proc q else (proc q).adopted p init := by
    rw [adoptOn_append, adoptOn, ite_cond_congr (propext (hmem q)), ite_not]
  simp only [reparentOn, reparented, hex, hq]

/-- `exit` passes every child to `initproc`, and wakes it if one of them is a zombie. -/
theorem exitReparent_spec (hL : ListInv t.proc t.links L) :
    ∃ k L', ListInv (reparented p t.initproc t.proc) k L' ∧
      exitReparent p t = .ok { t with proc := reparented p t.initproc t.proc, links := k } := by
  have h1 := hL.adoptOn p t.initproc (L .embryo)
  have h2 := h1.adoptOn p t.initproc ((List.finRange (MAX + 1)).flatMap fun i => L (.ready i))
  have h3 := h2.adoptOn p t.initproc (L .sleep)
  have h4 := h3.adoptOn p t.initproc (L .running)
  obtain ⟨k, L', hL', heq⟩ := adoptZombies_spec (p := p)
    (t := { t with proc := adoptOn p t.initproc (L .running) _ }) [] h4
    (nil_append _).symm (hL.holds.length_lt .zombie)
  have hcover : reparentOn p t.initproc (L .zombie) (adoptOn p t.initproc (L .running)
      (adoptOn p t.initproc (L .sleep) (adoptOn p t.initproc
        ((List.finRange (MAX + 1)).flatMap fun i => L (.ready i))
        (adoptOn p t.initproc (L .embryo) t.proc)))) = reparented p t.initproc t.proc := by
    rw [adoptOn_append, adoptOn_append, adoptOn_append]
    refine reparentOn_adoptOn (fun q => ?_) fun q =>
      ⟨hL.state, fun h => hL.mem_of_state h nofun⟩
    rw [← mem_killOrder hL, killOrder]
    simp only [mem_append]
    tauto
  rw [hcover] at heq hL'
  refine ⟨k, L', hL', ?_⟩
  rw [exitReparent, adoptzombiechildren_eq .embryo hL, ok_bind, adoptReady_eq _ h1, ok_bind,
    adoptzombiechildren_eq .sleep h2, ok_bind, adoptzombiechildren_eq .running h3, ok_bind]
  rw [(hL.chain .zombie).head_eq]
  exact heq

/-- The fields of a process that has just exited. -/
def Proc.exited (ticks : UInt32) (q : Proc) : Proc :=
  { q with state := .zombie, cpuTicksTotal := q.cpuTicksTotal + (ticks - q.cpuTicksIn) }

@[simp] theorem Proc.exited_parent (ticks : UInt32) (q : Proc) :
    (q.exited ticks).parent = q.parent := rfl

/-- `exit` moves the process to the zombie list, with its last ticks counted. -/
theorem exitZombie_spec (hL : ListInv t.proc t.links L)
    (hp : (t.proc p).state = .running) :
    ∃ k L', ListInv (update t.proc p ((t.proc p).exited t.ticks)) k L' ∧
      exitZombie p t = .ok { t with
        proc := update t.proc p ((t.proc p).exited t.ticks)
        links := k } := by
  obtain ⟨k, hk, hw⟩ := hL.remove (hL.mem_of_state (l := .running) hp nofun)
  refine ⟨_, _, hw.pushFront (q := (t.proc p).exited t.ticks) (l := .zombie) rfl (hL.bound p), ?_⟩
  simp only [exitZombie, hk, ok_bind]
  rw [panicIf_neg (by decide), ok_bind, assertstate_ok (by exact hp), ok_bind,
    sched_eq (by simp [PTable.modProc])]
  simp [PTable.modProc, Proc.exited]

/-- The processes after `exit`, up to the fields of the process itself. -/
def exitProcs (p : Slot) (init : Option Slot) (proc : Slot → Proc) : Slot → Proc :=
  reparented p init fun q => (proc q).woken (.ofPtr (proc p).parent)

/-- Fields that a section writes to a process it at most wakes. -/
def Proc.Wakes (q q' : Proc) : Prop :=
  q'.state = q.state ∨ q.state = .sleeping ∧ q'.state = .runnable

theorem Proc.Wakes.trans {q1 q2 q3 : Proc} (h : q1.Wakes q2) (h' : q2.Wakes q3) : q1.Wakes q3 := by
  unfold Proc.Wakes at *
  rcases h with h | ⟨h, h2⟩ <;> rcases h' with h' | ⟨h', h3⟩ <;> simp_all

theorem Proc.wakes_woken (chan : Chan) (q : Proc) : q.Wakes (q.woken chan) := by
  unfold woken
  split
  · next h => exact .inr ⟨h.1, rfl⟩
  · exact .inl rfl

theorem reparented_wakes (q : Slot) : (proc q).Wakes (reparented p init proc q) := by
  have hr : (proc q).Wakes
      (if (proc q).state = .unused then proc q else (proc q).adopted p init) := by
    split
    · exact .inl rfl
    · exact .inl (Proc.adopted_state ..)
  unfold reparented
  dsimp only
  split
  · exact hr.trans (Proc.wakes_woken ..)
  · exact hr

/-- Up to the process itself, `exit` wakes processes and changes no other state. -/
theorem exitProcs_wakes (q : Slot) : (proc q).Wakes (exitProcs p init proc q) :=
  (Proc.wakes_woken _ (proc q)).trans (reparented_wakes q)

/-- `exit` by a process other than `initproc`. -/
theorem exit_spec (hL : ListInv t.proc t.links L) (hp : (t.proc p).state = .running)
    (hi : some p ≠ t.initproc) :
    ∃ k L', ListInv (update (exitProcs p t.initproc t.proc) p
        ((exitProcs p t.initproc t.proc p).exited t.ticks)) k L' ∧
      exit p t = .ok { t with
        proc := update (exitProcs p t.initproc t.proc) p
          ((exitProcs p t.initproc t.proc p).exited t.ticks)
        links := k } := by
  obtain ⟨k1, L1, hL1, -, h1⟩ := wakeup1_spec (.ofPtr (t.proc p).parent) hL
  obtain ⟨k2, L2, hL2, h2⟩ := exitReparent_spec (p := p) (t := { t with
    proc := fun q => (t.proc q).woken (.ofPtr (t.proc p).parent), links := k1 }) hL1
  rw [← exitProcs] at hL2 h2
  have hrun : (exitProcs p t.initproc t.proc p).state = .running :=
    ((exitProcs_wakes p).resolve_right fun h => absurd (hp.symm.trans h.1) nofun).trans hp
  generalize exitProcs p t.initproc t.proc = proc at hL2 h2 hrun ⊢
  obtain ⟨k3, L3, hL3, h3⟩ := exitZombie_spec (t := { t with proc := proc, links := k2 }) hL2 hrun
  refine ⟨k3, L3, hL3, ?_⟩
  rw [exit, panicIf_neg hi, ok_bind, h1, ok_bind, h2, ok_bind]
  exact h3

/-! ## Waiting for a child -/

/-- `checkforchildren` tells whether a process of the list is a child. -/
theorem checkforchildren_eq (l : ListId) (hL : ListInv t.proc t.links L) :
    checkforchildren l p t = .ok (if ∃ q ∈ L l, (t.proc q).parent = some p then 0 else -1) := by
  have hf : ((L l).find? fun q => decide ((t.proc q).parent = some p)).isSome ↔
      ∃ q ∈ L l, (t.proc q).parent = some p := by
    simp [find?_isSome]
  rw [checkforchildren, t.search_eq hL, ok_bind]
  simp only [hf]
  rfl

/-- The loop of `wait` over ready lists looks for a child on them. -/
theorem childOnReady_eq (hL : ListInv t.proc t.links L) : ∀ is,
    childOnReady p t is =
      .ok (decide (∃ q ∈ is.flatMap fun i => L (.ready i), (t.proc q).parent = some p))
  | [] => by simp [childOnReady]
  | i :: is => by
    rw [childOnReady, checkforchildren_eq (.ready i) hL, ok_bind, childOnReady_eq hL is, ok_bind]
    simp only [List.flatMap_cons, List.mem_append, or_and_right, exists_or, pure_eq_ok,
      Except.ok.injEq, ← Bool.decide_or]
    congr 1
    refine propext (or_congr_left ?_)
    split <;> simp_all

/-- The fields of a zombie that `wait` has freed. -/
def Proc.reaped (q : Proc) : Proc :=
  { q with state := .unused, pid := 0, parent := none, killed := false }

/-- The four searches of `wait` see every child that is not a zombie. -/
theorem havekids_iff (hL : ListInv t.proc t.links L) :
    ((∃ q ∈ L .embryo, (t.proc q).parent = some p) ∨
      (∃ q ∈ L .running, (t.proc q).parent = some p) ∨
      (∃ q ∈ L .sleep, (t.proc q).parent = some p) ∨
      ∃ q ∈ (List.finRange (MAX + 1)).flatMap fun i => L (.ready i), (t.proc q).parent = some p) ↔
    ∃ q, ((t.proc q).state ≠ .unused ∧ (t.proc q).state ≠ .zombie) ∧
      (t.proc q).parent = some p := by
  simp only [← mem_killOrder hL, killOrder, mem_append, or_and_right, exists_or, or_comm,
    or_left_comm]

/-- One turn of `wait` frees a zombie child and returns its pid, returns `-1` when there is no
child or the process was killed, or goes to sleep when there is a child but no zombie. -/
theorem wait_spec (hL : ListInv t.proc t.links L) (hp : (t.proc p).state = .running) :
    (∃ z k L', (t.proc z).state = .zombie ∧ (t.proc z).parent = some p ∧
      ListInv (update t.proc z (t.proc z).reaped) k L' ∧
      wait p t = .ok (.ret (t.proc z).pid.toInt32, { t with
        proc := update t.proc z (t.proc z).reaped
        links := k })) ∨
    (wait p t = .ok (.ret (-1), t) ∧
      ((∀ q, (t.proc q).state ≠ .unused → (t.proc q).parent ≠ some p) ∨ (t.proc p).killed)) ∨
    ∃ k L', (∀ z, (t.proc z).state = .zombie → (t.proc z).parent ≠ some p) ∧
      ListInv (update t.proc p ((t.proc p).slept t.ticks (.proc p))) k L' ∧
      wait p t = .ok (.slept, { t with
        proc := update t.proc p ((t.proc p).slept t.ticks (.proc p))
        links := k }) := by
  have hite : ∀ q : Prop, [Decidable q] → ((if q then (0 : Int) else -1) = 0 ↔ q) := by
    intro q _
    split <;> simp_all
  simp only [wait, checkforchildren_eq _ hL, childOnReady_eq hL, ok_bind, t.search_eq hL, hite,
    decide_eq_true_eq, havekids_iff hL]
  cases hf : (L .zombie).find? fun q => decide ((t.proc q).parent = some p) with
  | some z =>
    have hz : z ∈ L .zombie := mem_of_find?_eq_some hf
    have hzst : (t.proc z).state = .zombie := hL.state hz
    have hpar : (t.proc z).parent = some p := by simpa using find?_some hf
    obtain ⟨k, hk, hw⟩ := hL.remove hz
    refine .inl ⟨z, _, _, hzst, hpar,
      hw.pushFront (q := (t.proc z).reaped) (l := .free) rfl (hL.bound z), ?_⟩
    simp only [hk, ok_bind]
    rw [panicIf_neg (by decide), ok_bind, assertstate_ok (by exact hzst)]
    rfl
  | none =>
    have hno : ∀ z, (t.proc z).state = .zombie → (t.proc z).parent ≠ some p := by
      intro z hz
      simpa using find?_eq_none.1 hf z (hL.mem_of_state hz (by decide))
    dsimp only
    split
    · next hkids =>
      refine .inr (.inl ⟨rfl, hkids.imp_left fun hnone q hu hq => ?_⟩)
      exact hnone ⟨q, ⟨hu, fun hz => hno q hz hq⟩, hq⟩
    · obtain ⟨k, L', hI, heq⟩ := sleep_spec (.proc p) hL hp
      exact .inr (.inr ⟨k, L', hno, hI, by rw [heq]; rfl⟩)

end

end TronBoss
