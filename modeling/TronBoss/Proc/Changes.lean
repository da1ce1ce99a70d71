import TronBoss.Proc.Steps

/-!
# What a step does to one process

`Sys.Change s a s' q x`: the step `a` from `s` to `s'` may leave the process `q` with the fields `x`.
Every step changes every process in one of these ways (`Sys.Inv.change`), so that an invariant over
the fields of a process is shown by cases on the way and not on the steps.
-/

namespace TronBoss

open Function

/-- The steps by which a running process gives up its processor and is charged for its time. -/
def Act.charges (c : Fin NCPU) : Act → Bool
  | .yield c' | .sleep c' _ | .wait c' => c' = c
  | _ => false

/-- The fields of a process that has given up its processor. -/
def Proc.charged (ticks : UInt32) (st : ProcState) (chan : Chan) (q : Proc) : Proc :=
  { chargeBudget ticks q with
    state := st, chan := chan, cpuTicksTotal := q.cpuTicksTotal + (ticks - q.cpuTicksIn) }

/-- The fields of a process that is dispatched. -/
def Proc.dispatched (ticks : UInt32) (chan : Chan) (q : Proc) : Proc :=
  { q with state := .running, chan := chan, cpuTicksIn := ticks }

/-- What a step may do to the process `q`. -/
inductive Sys.Change (s : Sys) (a : Act) (s' : Sys) (q : Slot) (x : Proc) : Prop
  /-- Nothing, a promotion or a `setpriority`. -/
  | ranked (hx : (s.t.proc q).Ranked x)
  /-- `allocproc` takes the slot. -/
  | taken {c p} (ha : a = .fork c) (hp : s'.cont p = .alloc q) (hq : (s.t.proc q).state = .unused)
      (hx : x = { s.t.proc q with state := .embryo, pid := s.t.nextpid })
  /-- The end of `allocproc`. -/
  | made {c p b} (ha : a = .forkStack c true) (hc : s.cpu c = .run p b) (hp : s.cont p = .alloc q)
      (hq : (s.t.proc q).state = .embryo)
      (hx : x = { s.t.proc q with
        startTicks := s.t.ticks, cpuTicksTotal := 0, cpuTicksIn := 0, budget := DEFAULT_BUDGET
        priority := DEFAULT_PRIORITY })
  /-- The child gets the fields of its parent. -/
  | copied {c p sz par uid gid} (hp : s.cont p = .fork q) (hq : (s.t.proc q).state = .embryo)
      (hx : x = { s.t.proc q with sz := sz, parent := par, uid := uid, gid := gid })
      (ha : a = .forkImage c true)
  /-- An embryo is given back. -/
  | given {c p b} (hc : s.cpu c = .run p b)
      (ha : a = .forkStack c false ∧ s.cont p = .alloc q ∨
        a = .forkImage c false ∧ s.cont p = .fork q)
      (hq : (s.t.proc q).state = .embryo) (hx : x = { s.t.proc q with state := .unused })
  /-- The child is ready to run. -/
  | ready {c p} (hp : s.cont p = .copied q) (hq : (s.t.proc q).state = .embryo)
      (hx : x = { s.t.proc q with state := .runnable }) (ha : a = .forkDone c)
  /-- The process is woken up, or gets another parent. -/
  | woken {st par} (hst : st = (s.t.proc q).state ∨ (s.t.proc q).state = .sleeping ∧ st = .runnable)
      (hx : x = { s.t.proc q with state := st, parent := par })
      (hpar : par = (s.t.proc q).parent ∨ ∃ c, a = .exit c)
  /-- The process exits. -/
  | exited {c b par} (ha : a = .exit c) (hc : s.cpu c = .run q b)
      (hx : x = { (s.t.proc q).exited s.t.ticks with parent := par })
  /-- A zombie is reaped. -/
  | reaped {c p b k} (ha : a = .wait c) (hc : s.cpu c = .run p b)
      (hq : (s.t.proc q).state = .zombie) (hpar : (s.t.proc q).parent = some p)
      (ht : s'.t = s.t.put (update s.t.proc q (s.t.proc q).reaped) k)
      (hw : wait p s.t = .ok (.ret (s.t.proc q).pid.toInt32, s'.t)) (hx : x = (s.t.proc q).reaped)
  /-- The process gives up its processor. -/
  | charged {c b st chan} (ha : a.charges c) (hc : s.cpu c = .run q b)
      (hst : st = .runnable ∨ st = .sleeping ∧ a ≠ .yield c)
      (hx : x = (s.t.proc q).charged s.t.ticks st chan)
  /-- The process is named by `kill`, or faults. -/
  | killed (ha : (∃ c pid, a = .kill c pid ∧ (s.t.proc q).pid = pid.toUInt32) ∨
        ∃ c b, a = .fault c ∧ s.cpu c = .run q b)
      (hu : (s.t.proc q).state ≠ .unused) (hx : x = (s.t.proc q).marked)
  /-- The process gets a processor. -/
  | dispatched {c r chan} (ha : a = .turn c) (hq : (s.t.proc q).state = .runnable)
      (hr : (s.t.proc q).Ranked r) (hx : x = r.dispatched s.t.ticks chan)

section
variable {s s' : Sys} {a : Act} {c : Fin NCPU} {p q : Slot} {x : Proc}

theorem Sys.Change.refl : s.Change a s' q (s.t.proc q) := .ranked (.priority _)

/-- A step that changes the fields of one process. -/
theorem Sys.Change.one (h : s.Change a s' p x) : s.Change a s' q (update s.t.proc p x q) := by
  rcases eq_or_ne q p with rfl | hne
  · rwa [update_self]
  · rw [update_of_ne hne]
    exact .refl

/-- A wakeup changes the state only. -/
theorem Proc.woken_form (chan : Chan) (q : Proc) : ∃ st, q.woken chan = { q with state := st } ∧
    (st = q.state ∨ q.state = .sleeping ∧ st = .runnable) := by
  unfold woken
  split
  · next h => exact ⟨_, rfl, .inr ⟨h.1, rfl⟩⟩
  · exact ⟨_, rfl, .inl rfl⟩

/-- `exit` changes the states and the parents of the other processes only. -/
theorem exitProcs_form (p : Slot) (init : Option Slot) (proc : Slot → Proc) (q : Slot) :
    ∃ st par, exitProcs p init proc q = { proc q with state := st, parent := par } ∧
      (st = (proc q).state ∨ (proc q).state = .sleeping ∧ st = .runnable) := by
  have hform : ∃ st par, exitProcs p init proc q = { proc q with state := st, parent := par } := by
    obtain ⟨st, e, -⟩ := (proc q).woken_form (.ofPtr (proc p).parent)
    have ha : ∀ r : Proc, ∃ par,
        (if r.state = .unused then r else r.adopted p init) = { r with parent := par } := by
      intro r
      unfold Proc.adopted
      split
      · exact ⟨_, rfl⟩
      · split <;> exact ⟨_, rfl⟩
    obtain ⟨par, e'⟩ := ha ((proc q).woken (.ofPtr (proc p).parent))
    unfold exitProcs reparented
    dsimp only
    split
    · rw [e', e]
      obtain ⟨st', e', -⟩ := Proc.woken_form (.ofPtr init)
        { proc q with state := st, parent := par }
      exact ⟨st', par, e'⟩
    · exact ⟨st, par, by rw [e', e]⟩
  obtain ⟨st, par, e⟩ := hform
  have hw : (proc q).Wakes (exitProcs p init proc q) := exitProcs_wakes q
  rw [e] at hw
  exact ⟨st, par, e, hw⟩

/-- The charge reads the budget, the priority and the time of the dispatch. -/
theorem chargeBudget_with (q : Proc) (ticks : UInt32) (st : ProcState) (chan : Chan) :
    chargeBudget ticks { q with state := st, chan := chan } =
      { chargeBudget ticks q with state := st, chan := chan } := by
  unfold chargeBudget
  dsimp only
  split
  · split <;> rfl
  · rfl

theorem Proc.yielded_eq_charged (q : Proc) (ticks : UInt32) :
    q.yielded ticks = q.charged ticks .runnable q.chan := by
  obtain ⟨_, _, e⟩ := chargeBudget_eq q ticks
  have he := chargeBudget_with q ticks .runnable q.chan
  rw [yielded, he, charged, e]

theorem Proc.slept_eq_charged (q : Proc) (ticks : UInt32) (chan : Chan) :
    q.slept ticks chan = q.charged ticks .sleeping chan := by
  obtain ⟨_, _, e⟩ := chargeBudget_eq q ticks
  have he := chargeBudget_with q ticks q.state chan
  rw [slept, he, charged, e]

/-- A charge leaves the identity of a process, its mark and its times alone. -/
theorem Proc.charged_eq (q : Proc) (ticks : UInt32) (st : ProcState) (chan : Chan) :
    ∃ x y, q.charged ticks st chan = { q with
      state := st, chan := chan, priority := x, budget := y
      cpuTicksTotal := q.cpuTicksTotal + (ticks - q.cpuTicksIn) } := by
  obtain ⟨x, y, e⟩ := chargeBudget_eq q ticks
  exact ⟨x, y, by rw [charged, e]⟩

/-- A dispatch, and the promotion before it. -/
theorem Sys.Change.turn {t : PTable} {k : Links} {b : Bool} (hr : Reprioritized s.t.looked t)
    (hp : (t.proc p).state = .runnable)
    (hs' : s'.t = (Sys.resume { s with t := t.put (update t.proc p
      { t.proc p with state := .running, cpuTicksIn := t.ticks }) k } c p b).t) :
    s.Change (.turn c) s' q (s'.t.proc q) := by
  have hrank : ∀ r, (s.t.proc r).Ranked (t.proc r) := hr.proc
  have hticks : t.ticks = s.t.ticks := hr.ticks
  have hq : ∃ chan, s'.t.proc = update t.proc p ((t.proc p).dispatched t.ticks chan) := by
    rcases resume_eq (s := { s with t := t.put (update t.proc p
      { t.proc p with state := .running, cpuTicksIn := t.ticks }) k }) (c := c) (p := p) b with
      ⟨ht, -⟩ | ⟨ht, -⟩
    · rw [ht] at hs'
      exact ⟨(t.proc p).chan, by rw [hs']; rfl⟩
    · rw [ht] at hs'
      exact ⟨.null, by rw [hs']; simp [PTable.modProc, Proc.dispatched]⟩
  obtain ⟨chan, e⟩ := hq
  rw [e]
  rcases eq_or_ne q p with rfl | hne
  · rw [update_self]
    exact .dispatched rfl ((hr.state q).symm.trans hp) (hrank q) (by rw [hticks])
  · rw [update_of_ne hne]
    exact .ranked (hrank q)

/-- Every step changes every process in one of the ways. -/
theorem Sys.Trans.change (ht : s.Trans a s') (hI : s.Inv) (q : Slot) :
    s.Change a s' q (s'.t.proc q) := by
  cases ht with
  | @fork c p b np k _ _ ho hnp => exact .one (.taken rfl (update_self ..) hnp rfl)
  | @forkStack c p b np hc hp =>
    exact .one (p := np) (.made rfl hc hp (hI.embryo p np (by rw [hp]; rfl)) rfl)
  | @forkImage c p b np hc hp =>
    exact .one (p := np) (.copied hp (hI.embryo p np (by rw [hp]; rfl)) rfl rfl)
  | @forkFail _ c p b np k hc _ hp =>
    refine .one (.given hc hp (hI.embryo p np ?_) rfl)
    rcases hp with ⟨-, hp⟩ | ⟨-, hp⟩ <;> rw [hp] <;> rfl
  | @forkDone c p b np k hc _ hp =>
    exact .one (.ready hp (hI.embryo p np (by rw [hp]; rfl)) rfl rfl)
  | @exit c p b k hc _ _ _ =>
    simp only [swtch_t, PTable.put_proc]
    obtain ⟨st, par, e, hst⟩ := exitProcs_form p s.t.initproc s.t.proc q
    rcases eq_or_ne q p with rfl | hne
    · rw [update_self, e]
      exact .exited rfl hc rfl
    · rw [update_of_ne hne, e]
      exact .woken hst rfl (.inr ⟨c, rfl⟩)
  | reap k hc _ hz hpar heq => exact .one (.reaped rfl hc hz hpar rfl heq rfl)
  | waitSleep k hc _ _ | sleep k hc _ _ =>
    rw [swtch_t]
    exact .one (.charged (decide_eq_true rfl) hc (.inr ⟨rfl, nofun⟩) (Proc.slept_eq_charged ..))
  | yield k hc _ =>
    rw [swtch_t]
    exact .one (.charged (decide_eq_true rfl) hc (.inl rfl) (Proc.yielded_eq_charged ..))
  | @wakeup chan k _ =>
    obtain ⟨st, e, hst⟩ := (s.t.proc q).woken_form chan
    exact .woken hst e (.inl rfl)
  | @kill c p b pid found k _ _ _ hf =>
    cases found with
    | none => exact .refl
    | some r => exact .one (.killed (.inl ⟨c, pid, rfl, (hf r rfl).1⟩) (hf r rfl).2 rfl)
  | setpriority _ _ _ hr | advance _ _ hr _ | pass _ _ hr => exact .ranked (hr.proc q)
  | @fault c p b hc _ =>
    have hrun := hI.running c p b hc
    refine .one (p := p) (.killed (.inr ⟨c, b, rfl, hc⟩) (hrun.trans_ne nofun) ?_)
    simp [Proc.marked, hrun]
  | dispatch k _ _ hr hp => exact .turn hr hp rfl
  | _ => exact .refl

theorem Sys.Inv.change (hI : s.Inv) (hs : s.step a = .ok s') (q : Slot) :
    s.Change a s' q (s'.t.proc q) :=
  (hI.trans hs).change hI q

/-- A slot in use keeps its pid, and gets one when it is taken. -/
theorem Sys.Change.pid (hI : s.Inv) (h : s.Change a s' q x) (hx : x.state ≠ .unused) :
    (s.t.proc q).state ≠ .unused ∧ x.pid = (s.t.proc q).pid ∨
      (s.t.proc q).state = .unused ∧ (∃ c, a = .fork c) ∧ ∃ p, s'.cont p = .alloc q := by
  cases h with
  | @taken c p ha hp hq _ => exact .inr ⟨hq, ⟨c, ha⟩, p, hp⟩
  | ranked hr =>
    obtain ⟨_, _, rfl, -⟩ := hr
    exact .inl ⟨hx, rfl⟩
  | woken hst e =>
    subst e
    refine .inl ⟨?_, rfl⟩
    rcases hst with rfl | ⟨hst, -⟩
    · exact hx
    · exact hst.trans_ne nofun
  | charged _ hc _ e =>
    obtain ⟨_, _, e'⟩ := (s.t.proc q).charged_eq s.t.ticks _ _
    exact .inl ⟨(hI.running _ _ _ hc).trans_ne nofun, by rw [e, e']⟩
  | exited _ hc e =>
    exact .inl ⟨(hI.running _ _ _ hc).trans_ne nofun, e ▸ rfl⟩
  | killed _ hu e => exact .inl ⟨hu, e ▸ rfl⟩
  | dispatched _ hq hr e =>
    obtain ⟨_, _, rfl, -⟩ := hr
    exact .inl ⟨hq ▸ nofun, e ▸ rfl⟩
  | made _ _ _ hq e | copied _ hq e | ready _ hq e => exact .inl ⟨hq ▸ nofun, e ▸ rfl⟩
  | given _ _ _ e | reaped _ _ _ _ _ _ e => exact absurd (e ▸ rfl) hx

end

end TronBoss
