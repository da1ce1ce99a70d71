import TronBoss.Proc.Family

/-!
# What the rest of the kernel cannot do to a process inside a routine

A routine that sleeps holds locks for part of its way, with interrupts off: its processor then takes
no other step. `Sys.Env s busy inside a` says that the step `a` respects this, for a set of busy
processors and a set of processes that are inside such a routine, where a process can at most be
preempted. Such a step leaves a busy processor and its hold on `ptable.lock` alone, puts none of
these processes to sleep, and marks one of them as killed only if it is a `kill` of its pid.
-/

namespace TronBoss

open Function

/-- The processor that makes a step, if it is a certain one. -/
def Act.cpu? : Act → Option (Fin NCPU)
  | .fork c | .forkStack c _ | .forkImage c _ | .forkDone c | .exit c | .wait c | .yield c
  | .sleep c _ | .kill c _ | .setpriority c _ _ | .fault c | .enter c | .turn c => some c
  | .wakeup _ | .tick => none

/-- A step of the rest of the kernel. -/
def Sys.Env (s : Sys) (busy : Fin NCPU → Prop) (inside : Slot → Prop) (a : Act) : Prop :=
  ∀ c, a.cpu? = some c → ¬ busy c ∧ ∀ p b, s.cpu c = .run p b → inside p → a = .yield c

instance (s : Sys) (busy : Fin NCPU → Prop) (inside : Slot → Prop) (a : Act)
    [DecidablePred busy] [DecidablePred inside] : Decidable (s.Env busy inside a) :=
  inferInstanceAs (Decidable (∀ _, _ → _ ∧ _))

section
variable {s s' : Sys} {a : Act} {c : Fin NCPU} {p : Slot}

theorem Sys.Inv.setLock (h : s.Inv) (k : Option (Fin NCPU)) : Sys.Inv { s with lock := k } :=
  h.keep h.table (fun _ _ => rfl) k

theorem Sys.swtch_cpu_of_ne {d : Fin NCPU} (hd : d ≠ c) (b : Bool) :
    (s.swtch c b).cpu d = s.cpu d := by
  unfold swtch
  split <;> simp [setCpu, hd]

/-- A step changes the state of its own processor only. -/
theorem Sys.Trans.cpu_eq (ht : s.Trans a s') (hc : a.cpu? ≠ some c) : s'.cpu c = s.cpu c := by
  have hswtch : ∀ {s1 : Sys} {c1 b}, some c1 ≠ some c → s1.cpu = s.cpu →
      (s1.swtch c1 b).cpu c = s.cpu c := by
    intro s1 c1 b hne h1
    rw [swtch_cpu_of_ne fun e => hne (by rw [e]), h1]
  cases ht with
  | exit k _ _ _ _ | waitSleep k _ _ _ | yield k _ _ | sleep k _ _ _ => exact hswtch hc rfl
  | enter _ _ | advance _ _ _ _ | pass _ _ _ => exact update_of_ne (fun e => hc (by rw [e]; rfl)) ..
  | dispatch k _ _ _ _ =>
    rw [resume_cpu]
    exact update_of_ne (fun e => hc (by rw [e]; rfl)) ..
  | _ => rfl

/-- A processor that holds `ptable.lock` loses it by a step of its own only. -/
theorem Sys.Trans.lock_eq (ht : s.Trans a s') (hc : a.cpu? ≠ some c) (hl : s.lock = some c) :
    s'.lock = some c := by
  have hfree : s.lock ≠ none := hl.trans_ne nofun
  have hother : ∀ {c1 p}, some c1 ≠ some c → ¬ s.MayWait c1 p := by
    rintro c1 p hne (⟨h, -⟩ | ⟨h, -⟩)
    · exact hfree h
    · exact hne (h.symm.trans hl)
  cases ht with
  | forkFull _ h _ | fork k _ h _ _ | forkFail k _ h _ | forkDone k _ h _ | exit k _ h _ _
  | yield k _ h | sleep k _ h _ | wakeup k h | kill k _ h _ _ | setpriority _ h _ _ | enter _ h =>
    exact absurd h hfree
  | reap k _ h _ _ _ | waitFail _ h _ | waitSleep k _ h _ => exact absurd h (hother hc)
  | advance _ h _ _ | pass _ h _ | dispatch k _ h _ _ => exact absurd (h.symm.trans hl) hc
  | forkStack _ _ | forkImage _ _ | fault _ _ | tick => exact hl

theorem Act.cpu?_of_charges (h : a.charges c) : a.cpu? = some c := by
  cases a with
  | yield c' | sleep c' chan | wait c' => exact congrArg some (of_decide_eq_true h)
  | _ => cases h

/-- A process goes to sleep by a step of its own only, and keeps its channel while it sleeps. -/
theorem Sys.Change.asleep {x : Proc} (h : s.Change a s' p x) (hs : x.state = .sleeping) :
    ((s.t.proc p).state = .sleeping ∧ x.chan = (s.t.proc p).chan ∧
      x.killed = (s.t.proc p).killed) ∨
    ∃ c b, s.cpu c = .run p b ∧ a.cpu? = some c ∧ a ≠ .yield c := by
  cases h with
  | ranked hx =>
    obtain ⟨_, _, rfl, -⟩ := hx
    exact .inl ⟨hs, rfl, rfl⟩
  | woken hst hx =>
    subst hx
    refine .inl ⟨?_, rfl, rfl⟩
    rcases hst with hst | ⟨-, hst⟩
    · exact hst ▸ hs
    · cases hst.symm.trans hs
  | @charged c b st chan ha hc hst hx =>
    subst hx
    refine .inr ⟨c, b, hc, Act.cpu?_of_charges ha, (hst.resolve_left fun h => ?_).2⟩
    cases h.symm.trans hs
  | killed _ _ hx =>
    subst hx
    rw [Proc.marked] at hs
    split at hs
    · cases hs
    · exact absurd hs ‹_›
  | made _ _ _ hq hx | copied _ hq hx =>
    subst hx
    cases hq.symm.trans hs
  | taken _ _ _ hx | given _ _ _ hx | ready _ _ hx | exited _ _ hx | reaped _ _ _ _ _ _ hx
  | dispatched _ _ _ hx =>
    subst hx
    cases hs

/-- A process enters and leaves a routine by steps of its own, or leaves `sleep` when it gets a
processor; it leaves `allocproc` when it gets its kernel stack, or none. -/
theorem Sys.Trans.cont_eq (ht : s.Trans a s') :
    s'.cont p = s.cont p ∨ s.cont p = .asleep ∧ s'.cont p = .other ∨
    ∃ c b, s.cpu c = .run p b ∧ a.cpu? = some c ∧ a ≠ .yield c ∧
      ∀ np, s.cont p = .alloc np → ∃ ok, a = .forkStack c ok := by
  have hone : ∀ {c p' b x}, s.cpu c = .run p' b → a.cpu? = some c → a ≠ .yield c →
      (∀ np, s.cont p' = .alloc np → ∃ ok, a = .forkStack c ok) → s'.cont = update s.cont p' x →
      s'.cont p = s.cont p ∨ s.cont p = .asleep ∧ s'.cont p = .other ∨
        ∃ c b, s.cpu c = .run p b ∧ a.cpu? = some c ∧ a ≠ .yield c ∧
          ∀ np, s.cont p = .alloc np → ∃ ok, a = .forkStack c ok := by
    intro c p' b x hc ha hy hal h
    rcases eq_or_ne p p' with rfl | hne
    · exact .inr (.inr ⟨c, b, hc, ha, hy, hal⟩)
    · exact .inl (by rw [h, update_of_ne hne])
  have hnot : ∀ {c p'} {k : Cont}, s.cont p' = k → (∀ np, k ≠ .alloc np) →
      ∀ np, s.cont p' = .alloc np → ∃ ok, a = .forkStack c ok :=
    fun h hk np h' => absurd (h.symm.trans h') (hk np)
  have hwait : ∀ {c p'}, s.MayWait c p' → ∀ np, s.cont p' = .alloc np → ∃ ok, a = .forkStack c ok :=
    fun hw => hw.elim (fun h => hnot h.2 nofun) fun h => hnot h.2 nofun
  cases ht with
  | fork k hc _ ho _ => exact hone hc rfl nofun (hnot ho nofun) rfl
  | forkStack hc _ => exact hone hc rfl nofun (fun _ _ => ⟨true, rfl⟩) rfl
  | forkImage hc hp | forkDone k hc _ hp => exact hone hc rfl nofun (hnot hp nofun) rfl
  | forkFail k hc _ hp =>
    rcases hp with ⟨rfl, -⟩ | ⟨rfl, hp⟩
    · exact hone hc rfl nofun (fun _ _ => ⟨false, rfl⟩) rfl
    · exact hone hc rfl nofun (hnot hp nofun) rfl
  | exit k hc _ _ _ | yield k hc _ => exact .inl (by rw [swtch_cont])
  | reap k hc hw _ _ _ | waitFail hc hw _ => exact hone hc rfl nofun (hwait hw) rfl
  | waitSleep k hc hw _ => exact hone hc rfl nofun (hwait hw) (by rw [swtch_cont]; rfl)
  | sleep k hc _ ho => exact hone hc rfl nofun (hnot ho nofun) (by rw [swtch_cont]; rfl)
  | @dispatch c i p' t k _ _ hr hp =>
    rcases resume_eq (s := { s with t := t.put (update t.proc p'
      { t.proc p' with state := .running, cpuTicksIn := t.ticks }) k }) (c := c) (p := p')
      (i = Fin.last MAX) with ⟨-, h, -⟩ | ⟨-, ⟨-, h⟩ | ⟨has, h⟩⟩ <;> rw [h]
    · exact .inl rfl
    · exact .inl rfl
    · rcases eq_or_ne p p' with rfl | hne
      · exact .inr (.inl ⟨has, update_self ..⟩)
      · exact .inl (update_of_ne hne ..)
  | _ => exact .inl rfl

/-- A process past `allocproc` was so before the step, or `allocproc` has just set its fields. -/
theorem Sys.Inv.past_alloc (hI : s.Inv) (hs : s.step a = .ok s')
    (hp : (s'.t.proc p).state ≠ .unused) (hno : ∀ q, s'.cont q ≠ .alloc p) :
    (s.t.proc p).state = .embryo ∧ s'.t.proc p = { s.t.proc p with
      startTicks := s.t.ticks, cpuTicksTotal := 0, cpuTicksIn := 0, budget := DEFAULT_BUDGET
      priority := DEFAULT_PRIORITY } ∨
    (s.t.proc p).state ≠ .unused ∧ ∀ q, s.cont q ≠ .alloc p := by
  have hused := ((hI.change hs p).pid hI hp).resolve_right fun h => h.2.2.elim hno
  rcases em (∃ q, s.cont q = .alloc p) with ⟨q, hq⟩ | hnone
  · have ht := hI.trans hs
    obtain h | ⟨h, -⟩ | ⟨c, b, hc, -, -, hal⟩ := ht.cont_eq (p := q)
    · exact absurd (h.trans hq) (hno q)
    · cases hq.symm.trans h
    obtain ⟨ok, rfl⟩ := hal p hq
    cases ht with
    | forkStack hc' hp' =>
      cases hc'.symm.trans hc
      cases hp'.symm.trans hq
      exact .inl ⟨hI.embryo q p (by rw [hq]; rfl), update_self ..⟩
    | forkFail k hc' _ hp' =>
      rcases hp' with ⟨h, hp'⟩ | ⟨h, -⟩
      · cases h
        cases hc'.symm.trans hc
        cases hp'.symm.trans hq
        exact absurd (by simp) hp
      · cases h
  · exact .inr ⟨hused.1, fun q hq => hnone ⟨q, hq⟩⟩

/-- A process that runs is marked by a `kill` of its pid, or by a step of its own. -/
theorem Sys.Change.killed_eq {x : Proc} (h : s.Change a s' p x)
    (hr : (s.t.proc p).state = .running) : x.killed = (s.t.proc p).killed ∨
    (∃ c pid, a = .kill c pid ∧ (s.t.proc p).pid = pid.toUInt32) ∨
    ∃ c b, s.cpu c = .run p b ∧ a.cpu? = some c ∧ a ≠ .yield c := by
  cases h with
  | killed ha _ _ =>
    rcases ha with hkill | ⟨c, b, rfl, hc⟩
    · exact .inr (.inl hkill)
    · exact .inr (.inr ⟨c, b, hc, rfl, nofun⟩)
  | ranked hx =>
    obtain ⟨_, _, rfl, -⟩ := hx
    exact .inl rfl
  | charged _ _ _ hx =>
    obtain ⟨_, _, e⟩ := (s.t.proc p).charged_eq s.t.ticks _ _
    exact .inl (by rw [hx, e])
  | reaped _ _ hq _ _ _ _ | dispatched _ hq _ _ => cases hr.symm.trans hq
  | taken _ _ _ hx | made _ _ _ _ hx | copied _ _ hx | given _ _ _ hx | ready _ _ hx | woken _ hx
  | exited _ _ hx => exact .inl (hx ▸ rfl)

/-- What a wakeup does to the processes. -/
theorem Sys.Inv.wakeup1 {t : PTable} {chan : Chan} (h : s.Inv)
    (hs : TronBoss.wakeup1 chan s.t = .ok t) : Sys.Inv { s with t := t } ∧
      ∀ q, (t.proc q).killed = (s.t.proc q).killed ∧
        ((t.proc q).state = .sleeping → (s.t.proc q).state = .sleeping) := by
  obtain ⟨L, hL⟩ := h.table
  obtain ⟨k, L', hL', -, heq⟩ := wakeup1_spec chan hL
  cases heq.symm.trans hs
  refine ⟨h.wakes ⟨L', hL'⟩ fun q => ?_, fun q => ⟨?_, fun hq => (Proc.woken_sleeping hq).1⟩⟩
  · dsimp only
    unfold Proc.woken
    split
    · exact .inr ⟨And.left ‹_›, rfl⟩
    · exact .inl rfl
  · obtain ⟨st, e, -⟩ := (s.t.proc q).woken_form chan
    dsimp only
    rw [e]

/-- What a step of the rest of the kernel leaves alone. -/
structure Sys.Spares (s s' : Sys) (busy : Fin NCPU → Prop) (inside : Slot → Prop) (a : Act) :
    Prop where
  cpu : ∀ c, busy c → s'.cpu c = s.cpu c
  lock : ∀ c, busy c → s.lock = some c → s'.lock = some c
  asleep : ∀ p, inside p → (s'.t.proc p).state = .sleeping → (s.t.proc p).state = .sleeping ∧
    (s'.t.proc p).chan = (s.t.proc p).chan ∧ (s'.t.proc p).killed = (s.t.proc p).killed
  cont : ∀ p, inside p → s'.cont p = s.cont p ∨ s.cont p = .asleep ∧ s'.cont p = .other
  killed : ∀ p, inside p → (s.t.proc p).state = .running →
    (s'.t.proc p).killed = (s.t.proc p).killed ∨
      ∃ c pid, a = .kill c pid ∧ (s.t.proc p).pid = pid.toUInt32

/-- The rest of the kernel spares a process inside a routine. -/
theorem Sys.Env.spares {busy : Fin NCPU → Prop} {inside : Slot → Prop} (he : s.Env busy inside a)
    (hI : s.Inv) (hs : s.step a = .ok s') : s.Spares s' busy inside a := by
  have ht := hI.trans hs
  have hbusy : ∀ c, busy c → a.cpu? ≠ some c := fun c hb ha => (he c ha).1 hb
  -- a process inside a routine makes no step but a preemption
  have hno : ∀ {p}, inside p → ¬ ∃ c b, s.cpu c = .run p b ∧ a.cpu? = some c ∧ a ≠ .yield c := by
    rintro p hp ⟨c, b, hc, ha, hy⟩
    exact hy ((he c ha).2 p b hc hp)
  exact ⟨fun c hb => ht.cpu_eq (hbusy c hb), fun c hb => ht.lock_eq (hbusy c hb),
    fun p hp h => ((hI.change hs p).asleep h).resolve_right (hno hp),
    fun p hp => (or_assoc.2 ht.cont_eq).resolve_right
      fun ⟨c, b, hc, ha, hy, _⟩ => hno hp ⟨c, b, hc, ha, hy⟩,
    fun p hp h => (or_assoc.2 ((hI.change hs p).killed_eq h)).resolve_right (hno hp)⟩

end

end TronBoss
