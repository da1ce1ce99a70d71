import TronBoss.Proc.Frame

/-!
# Sleeping and waking up under a lock

Sleepers run `acquire(lk); while(!cond) sleep(chan, lk);` and wakers
`acquire(lk); cond = 1; wakeup(chan); release(lk);` on top of the machine of `TronBoss.Proc.System`.
`sleep` is cut at its `acquire` and `release`: it takes `ptable.lock` before it gives up `lk`, and
goes to sleep in one section under `ptable.lock`. When `lk` is `ptable.lock` itself, `sleep` changes
no lock, the waker calls `wakeup1`, and the sleeper comes back from `sched` with the lock.

A processor has interrupts off from an `acquire` to the matching `release`, so a waker, which may also
be an interrupt handler, is a matter of its processor, and a sleeper can be preempted only while it is
inside `sleep` without a lock.
-/

namespace TronBoss

open Lib Function

/-- Where a process is in the code of a sleeper. -/
inductive Loc where
  /-- Somewhere else. -/
  | out
  /-- Before the test of the condition, with `lk`. -/
  | test
  /-- In `sleep`, before `acquire(&ptable.lock)`, with `lk`. -/
  | call
  /-- In `sleep`, before `release(lk)`, with both locks. -/
  | both
  /-- In `sleep`, before it goes to sleep, with `ptable.lock`. -/
  | last
  /-- In `sleep`, asleep or on the way back to `acquire(lk)`. -/
  | asleep
  /-- After the loop, with `lk`. -/
  | done
  deriving DecidableEq, Repr

/-- The process has a lock, so that it is not preempted. -/
def Loc.locked : Loc → Bool
  | .out | .asleep => false
  | _ => true

/-- Where a processor is in the code of a waker. -/
inductive WakerLoc where
  /-- Somewhere else. -/
  | out
  /-- With `lk`, before the assignment. -/
  | start
  /-- Between the assignment and the end of the wakeup. -/
  | set
  /-- Before `release(lk)`. -/
  | done
  deriving DecidableEq, Repr

/-- The machine with sleepers and wakers. -/
structure Mon where
  sys : Sys
  /-- The holder of `lk`, when it is not `ptable.lock`. -/
  lk : Option (Fin NCPU)
  cond : Bool
  loc : Slot → Loc
  waker : Fin NCPU → WakerLoc

/-- The steps of sleepers, of wakers and of the rest of the kernel. -/
inductive MonAct where
  /-- `acquire(lk)`, by a process that starts or comes back from `sleep`. -/
  | acquire (c : Fin NCPU)
  /-- `while(!cond)`. -/
  | test (c : Fin NCPU)
  /-- `acquire(&ptable.lock)` in `sleep`. -/
  | lockTable (c : Fin NCPU)
  /-- `release(lk)` in `sleep`. -/
  | unlock (c : Fin NCPU)
  /-- The section of `sleep`. -/
  | sleep (c : Fin NCPU)
  /-- A holder of `lk` makes the condition false. -/
  | clear (c : Fin NCPU)
  /-- `release(lk)` after the loop. -/
  | leave (c : Fin NCPU)
  | wakerAcquire (c : Fin NCPU)
  | wakerSet (c : Fin NCPU)
  | wakerWakeup (c : Fin NCPU)
  | wakerRelease (c : Fin NCPU)
  | env (a : Act)
  deriving DecidableEq, Repr

/-- The processor holds a lock for a sleeper or a waker. -/
def Mon.Busy (m : Mon) (c : Fin NCPU) : Prop :=
  m.waker c ≠ .out ∨ ∃ p b, m.sys.cpu c = .run p b ∧ (m.loc p).locked

/-- The process is inside the code of a sleeper. -/
def Mon.Inside (m : Mon) (p : Slot) : Prop := m.loc p ≠ .out

instance Mon.decidableBusy (m : Mon) (c : Fin NCPU) : Decidable (m.Busy c) :=
  inferInstanceAs (Decidable (_ ∨ _))

instance Mon.decidableInside (m : Mon) (p : Slot) : Decidable (m.Inside p) :=
  inferInstanceAs (Decidable (_ ≠ _))

def Mon.setLoc (m : Mon) (p : Slot) (x : Loc) : Mon :=
  { m with loc := update m.loc p x }

def Mon.setWaker (m : Mon) (c : Fin NCPU) (x : WakerLoc) : Mon :=
  { m with waker := update m.waker c x }

section
variable (table : Bool) (chan : Chan)

/-- `acquire(lk)`, where `table` says that `lk` is `ptable.lock`. -/
def Mon.acquireLk (m : Mon) (c : Fin NCPU) : Except Stop Mon := do
  if table then
    require (m.sys.lock = none)
    return { m with sys := { m.sys with lock := some c } }
  else
    require (m.lk = none)
    return { m with lk := some c }

def Mon.releaseLk (m : Mon) : Mon :=
  if table then { m with sys := { m.sys with lock := none } } else { m with lk := none }

/-- The processor holds `lk`. -/
def Mon.Holds (m : Mon) (c : Fin NCPU) : Prop :=
  if table then m.sys.lock = some c else m.lk = some c

instance Mon.decidableHolds (m : Mon) (c : Fin NCPU) : Decidable (m.Holds table c) := by
  unfold Mon.Holds
  exact inferInstance

/-- One step. -/
def Mon.step (m : Mon) : MonAct → Except Stop Mon
  | .acquire c => do
    let (p, _) ← m.sys.current c
    require (¬ m.Busy c)
    match m.loc p with
    | .out =>
      require (m.sys.cont p = .other)
      let m ← m.acquireLk table c
      return m.setLoc p .test
    | .asleep =>
      if table then
        -- `sched` came back with `ptable.lock`
        require (m.sys.lock = some c)
        return { m with sys := m.sys.setCont p .other }.setLoc p .test
      else
        let m ← m.acquireLk table c
        return m.setLoc p .test
    | _ => .error .disabled
  | .test c => do
    let (p, _) ← m.sys.current c
    require (m.loc p = .test)
    return m.setLoc p (if m.cond then .done else if table then .last else .call)
  | .lockTable c => do
    let (p, _) ← m.sys.current c
    require (m.loc p = .call ∧ m.sys.lock = none)
    return { m with sys := { m.sys with lock := some c } }.setLoc p .both
  | .unlock c => do
    let (p, _) ← m.sys.current c
    require (m.loc p = .both)
    return { m with lk := none }.setLoc p .last
  | .sleep c => do
    let (p, last) ← m.sys.current c
    require (m.loc p = .last)
    let t ← sleep chan p m.sys.t
    let s := { m.sys.setCont p (if table then .wait else .asleep) with t := t }
    return { m with sys := s.swtch c last }.setLoc p .asleep
  | .clear c => do
    require (m.Holds table c)
    return { m with cond := false }
  | .leave c => do
    let (p, _) ← m.sys.current c
    require (m.loc p = .done)
    return (m.releaseLk table).setLoc p .out
  | .wakerAcquire c => do
    require (¬ m.Busy c ∧ ∀ i, m.sys.cpu c ≠ .loop i)
    let m ← m.acquireLk table c
    return m.setWaker c .start
  | .wakerSet c => do
    require (m.waker c = .start)
    return { m with cond := true }.setWaker c .set
  | .wakerWakeup c => do
    require (m.waker c = .set ∧ (table ∨ m.sys.lock = none))
    let t ← wakeup1 chan m.sys.t
    return { m with sys := { m.sys with t := t } }.setWaker c .done
  | .wakerRelease c => do
    require (m.waker c = .done)
    return (m.releaseLk table).setWaker c .out
  | .env a => do
    require (m.sys.Env m.Busy m.Inside a)
    let s ← m.sys.step a
    return { m with sys := s }

/-- The running machine `s`, before any sleeper or waker. -/
def Mon.start (s : Sys) (cond : Bool) : Mon where
  sys := s
  lk := none
  cond := cond
  loc _ := .out
  waker _ := .out

/-- The states that are reached when the sleepers and wakers start on a running machine. -/
inductive Mon.Reachable : Mon → Prop
  | start {s : Sys} {cond : Bool} : s.Reachable → Reachable (.start s cond)
  | step {m m' : Mon} {a : MonAct} : Reachable m → m.step table chan a = .ok m' → Reachable m'

end

/-- A process inside the routine with a lock, on its processor: it holds `lk` unless `sleep` has
given it up, and `ptable.lock` from then on. -/
structure Mon.Runs (table : Bool) (m : Mon) (p : Slot) (c : Fin NCPU) : Prop where
  cpu : ∃ b, m.sys.cpu c = .run p b
  waker : m.waker c = .out
  lk : m.loc p ≠ .last → m.Holds table c
  lock : m.loc p = .both ∨ m.loc p = .last → m.sys.lock = some c

/-- What holds between two steps. The last two fields carry the argument: between the test of the
condition and `release(lk)` the condition is false, and from then on a true condition means that a
waker has not finished its wakeup. -/
structure Mon.Ok (table : Bool) (chan : Chan) (m : Mon) : Prop where
  inv : m.sys.Inv
  cont : ∀ p, m.loc p ≠ .out → (m.sys.cont p).embryo? = none
  runs : ∀ p, (m.loc p).locked → ∃ c, m.Runs table p c
  waker : ∀ c, m.waker c ≠ .out → m.Holds table c
  direct : table → ∀ p, m.loc p ≠ .call ∧ m.loc p ≠ .both
  tested : ∀ p, m.loc p = .call ∨ m.loc p = .both ∨ table ∧ m.loc p = .last → m.cond = false
  pending : ∀ p, m.loc p = .last ∨ m.loc p = .asleep ∧ (m.sys.t.proc p).state = .sleeping ∧
    (m.sys.t.proc p).chan = chan → m.cond → ∃ c, m.waker c = .set

section
variable {table : Bool} {chan : Chan} {m m' : Mon} {c : Fin NCPU} {p : Slot} {b : Bool}

theorem Mon.Holds.eq {c' : Fin NCPU} (h : m.Holds table c) (h' : m.Holds table c') : c = c' := by
  unfold Mon.Holds at h h'
  split at h
  · rw [if_pos ‹_›, h] at h'
    exact Option.some.inj h'
  · rw [if_neg ‹_›, h] at h'
    exact Option.some.inj h'

/-- The processor of a process with a lock is the one that runs it. -/
theorem Mon.Ok.at (h : m.Ok table chan) (hc : m.sys.cpu c = .run p b) (hp : (m.loc p).locked) :
    m.Runs table p c := by
  obtain ⟨c', hr⟩ := h.runs p hp
  obtain ⟨b', hc'⟩ := hr.cpu
  rwa [h.inv.one c c' p b b' hc hc']

/-- What a step on a processor leaves of another one. -/
structure Mon.Leaves (table : Bool) (m m' : Mon) (d : Fin NCPU) : Prop where
  cpu : m'.sys.cpu d = m.sys.cpu d
  waker : m'.waker d = m.waker d
  holds : m.Holds table d → m'.Holds table d
  lock : m.sys.lock = some d → m'.sys.lock = some d

theorem Mon.Runs.of_leaves (h : m.Runs table p c) (hd : m.Leaves table m' c)
    (hp : m'.loc p = m.loc p) : m'.Runs table p c where
  cpu := by
    rw [hd.cpu]
    exact h.cpu
  waker := hd.waker.trans h.waker
  lk hx := hd.holds (h.lk (hp ▸ hx))
  lock hx := hd.lock (h.lock (hp ▸ hx))

/-- A step of a process on its processor, from what it does to the process itself and what it
leaves of the other ones. -/
theorem Mon.Ok.move (h : m.Ok table chan) (hc : m.sys.cpu c = .run p b) (hout : m.waker c = .out)
    (hI : m'.sys.Inv)
    (hq : ∀ q, q ≠ p → m'.loc q = m.loc q ∧ m'.sys.cont q = m.sys.cont q ∧
      m'.sys.t.proc q = m.sys.t.proc q)
    (hd : ∀ d, d ≠ c → m.Leaves table m' d) (hwaker : m'.waker = m.waker) (hcond : m'.cond = m.cond)
    (hcont : m'.loc p ≠ .out → (m'.sys.cont p).embryo? = none)
    (hruns : (m'.loc p).locked → m'.Runs table p c)
    (hdirect : table → m'.loc p ≠ .call ∧ m'.loc p ≠ .both)
    (htested : m'.loc p = .call ∨ m'.loc p = .both ∨ table ∧ m'.loc p = .last → m.cond = false)
    (hpending : m'.loc p = .last ∨ m'.loc p = .asleep → m.cond → ∃ d, m.waker d = .set) :
    m'.Ok table chan := by
  refine ⟨hI, fun q => ?_, fun q hl => ?_, fun d hd' => ?_, fun ht q => ?_, fun q => ?_,
    fun q => ?_⟩
  · rcases eq_or_ne q p with rfl | hne
    · exact hcont
    · rw [(hq q hne).1, (hq q hne).2.1]
      exact h.cont q
  · rcases eq_or_ne q p with rfl | hne
    · exact ⟨c, hruns hl⟩
    · obtain ⟨d, hr⟩ := h.runs q (by rwa [(hq q hne).1] at hl)
      obtain ⟨b', hb'⟩ := hr.cpu
      have hdc : d ≠ c := by
        rintro rfl
        exact hne (CpuState.run.inj (hb'.symm.trans hc)).1
      exact ⟨d, hr.of_leaves (hd d hdc) (hq q hne).1⟩
  · rw [hwaker] at hd'
    have hdc : d ≠ c := by
      rintro rfl
      exact hd' hout
    exact (hd d hdc).holds (h.waker d hd')
  · rcases eq_or_ne q p with rfl | hne
    · exact hdirect ht
    · rw [(hq q hne).1]
      exact h.direct ht q
  · rw [hcond]
    rcases eq_or_ne q p with rfl | hne
    · exact htested
    · rw [(hq q hne).1]
      exact h.tested q
  · rw [hcond, hwaker]
    rcases eq_or_ne q p with rfl | hne
    · exact fun hx => hpending (hx.imp_right And.left)
    · rw [(hq q hne).1, (hq q hne).2.2]
      exact h.pending q

/-- `acquire(lk)` when it is free. -/
theorem Mon.acquireLk_eq_ok (h : m.acquireLk table c = .ok m') :
    (∀ d, ¬ m.Holds table d) ∧ m'.Holds table c ∧
      (∀ d, m.sys.lock = some d → m'.sys.lock = some d) ∧
      ∃ k k', m' = { m with sys := { m.sys with lock := k }, lk := k' } := by
  unfold Mon.acquireLk at h
  cases table with
  | true =>
    obtain ⟨hn, h⟩ := require_bind_eq_ok h
    cases h
    have hno (d) : m.sys.lock ≠ some d := hn.trans_ne nofun
    exact ⟨hno, rfl, fun d hd => absurd hd (hno d), some c, m.lk, rfl⟩
  | false =>
    obtain ⟨hn, h⟩ := require_bind_eq_ok h
    cases h
    exact ⟨fun d => hn.trans_ne nofun, rfl, fun _ => id, m.sys.lock, some c, rfl⟩

/-- `release(lk)` by its holder. -/
theorem Mon.releaseLk_eq (h : m.Holds table c) :
    ∃ k k', m.releaseLk table = { m with sys := { m.sys with lock := k }, lk := k' } ∧
      ∀ d, d ≠ c → m.sys.lock = some d → k = some d := by
  cases table with
  | true => exact ⟨none, m.lk, rfl, fun d hd hx => absurd (hx ▸ h : some d = some c) (by simpa using hd)⟩
  | false => exact ⟨m.sys.lock, none, rfl, fun _ _ => id⟩

section
variable (h : m.Ok table chan)
include h

/-- A process that has acquired `lk` is about to test the condition. -/
theorem Mon.Ok.acquireLk {m1 : Mon} (hc : m.sys.cpu c = .run p b)
    (hbusy : ¬ m.Busy c) (hcont : (m.sys.cont p).embryo? = none)
    (hs : m.acquireLk table c = .ok m1) : (m1.setLoc p .test).Ok table chan := by
  obtain ⟨hfree, hheld, hlock, k, k', rfl⟩ := Mon.acquireLk_eq_ok hs
  have hout : m.waker c = .out := by
    by_contra hne
    exact hbusy (.inl hne)
  refine h.move hc hout (h.inv.setLock k) (fun q hq => ?_) (fun d hd => ?_) rfl rfl (fun _ => hcont)
    (fun _ => ?_) (fun _ => ?_) ?_ ?_
  · exact ⟨update_of_ne hq .., rfl, rfl⟩
  · exact ⟨rfl, rfl, fun hx => absurd hx (hfree d), hlock d⟩
  · refine ⟨⟨b, hc⟩, hout, fun _ => hheld, ?_⟩
    simp [Mon.setLoc]
  all_goals simp [Mon.setLoc]

/-- A process acquires the lock and tests the condition next. -/
theorem Mon.Ok.step_acquire (hs : m.step table chan (.acquire c) = .ok m') : m'.Ok table chan := by
  obtain ⟨p, b, hc, hs⟩ := Sys.current_eq_ok hs
  obtain ⟨hbusy, hs⟩ := require_bind_eq_ok hs
  cases hp : m.loc p with
  | out =>
    simp only [hp] at hs
    obtain ⟨hcont, hs⟩ := require_bind_eq_ok hs
    obtain ⟨m1, h1, hs⟩ := bind_eq_ok.1 hs
    cases hs
    exact h.acquireLk hc hbusy (by rw [hcont]; rfl) h1
  | asleep =>
    have hcont : (m.sys.cont p).embryo? = none := h.cont p (hp.trans_ne (by rintro ⟨⟩))
    simp only [hp] at hs
    cases table with
    | false =>
      obtain ⟨m1, h1, hs⟩ := bind_eq_ok.1 hs
      cases hs
      exact h.acquireLk hc hbusy hcont h1
    | true =>
      obtain ⟨hl, hs⟩ := require_bind_eq_ok hs
      cases hs
      have hout : m.waker c = .out := by
        by_contra hne
        exact hbusy (.inl hne)
      refine h.move hc hout (h.inv.setCont (x := .other) hcont.symm)
        (fun q hq => ⟨update_of_ne hq .., update_of_ne hq .., rfl⟩)
        (fun d hd => ⟨rfl, rfl, id, id⟩) rfl rfl (fun _ => ?_) (fun _ => ?_) ?_ ?_ ?_
      · simp [Mon.setLoc, Sys.setCont, Cont.embryo?]
      · exact ⟨⟨b, hc⟩, hout, fun _ => hl, fun _ => hl⟩
      all_goals simp [Mon.setLoc]
  | _ =>
    simp only [hp] at hs
    cases hs

/-- The test of the condition is made under the lock. -/
theorem Mon.Ok.step_test (hs : m.step table chan (.test c) = .ok m') : m'.Ok table chan := by
  obtain ⟨p, b, hc, hs⟩ := Sys.current_eq_ok hs
  obtain ⟨hp, hs⟩ := require_bind_eq_ok hs
  cases hs
  have hr := h.at hc (by rw [hp]; rfl)
  have hlk : m.Holds table c := hr.lk (hp.trans_ne nofun)
  refine h.move hc hr.waker h.inv (fun q hq => ⟨update_of_ne hq .., rfl, rfl⟩)
    (fun d hd => ⟨rfl, rfl, id, id⟩) rfl rfl (fun _ => h.cont p (hp.trans_ne nofun))
    (fun _ => ⟨⟨b, hc⟩, hr.waker, fun _ => hlk, ?_⟩) ?_ ?_ ?_
  all_goals simp only [Mon.setLoc, update_self]
  all_goals cases hcond : m.cond <;> cases table <;> simp
  exact hlk

/-- `sleep` takes `ptable.lock` while it has `lk`. -/
theorem Mon.Ok.step_lockTable (hs : m.step table chan (.lockTable c) = .ok m') :
    m'.Ok table chan := by
  obtain ⟨p, b, hc, hs⟩ := Sys.current_eq_ok hs
  obtain ⟨⟨hp, hl⟩, hs⟩ := require_bind_eq_ok hs
  cases hs
  have hr := h.at hc (by rw [hp]; rfl)
  have hlk : m.Holds table c := hr.lk (hp.trans_ne nofun)
  cases table with
  | true => exact absurd hp (h.direct rfl p).1
  | false =>
    refine h.move hc hr.waker (h.inv.setLock _)
      (fun q hq => ⟨update_of_ne hq .., rfl, rfl⟩)
      (fun d hd => ⟨rfl, rfl, id, fun hx => absurd (hl.symm.trans hx) nofun⟩) rfl rfl
      (fun _ => h.cont p (hp.trans_ne nofun))
      (fun _ => ⟨⟨b, hc⟩, hr.waker, fun _ => hlk, fun _ => rfl⟩) nofun
      (fun _ => h.tested p (.inl hp)) ?_
    simp [Mon.setLoc]

/-- `sleep` gives up `lk` once it has `ptable.lock`. -/
theorem Mon.Ok.step_unlock (hs : m.step table chan (.unlock c) = .ok m') : m'.Ok table chan := by
  obtain ⟨p, b, hc, hs⟩ := Sys.current_eq_ok hs
  obtain ⟨hp, hs⟩ := require_bind_eq_ok hs
  cases hs
  have hr := h.at hc (by rw [hp]; rfl)
  have hlk : m.Holds table c := hr.lk (hp.trans_ne nofun)
  have hcond := h.tested p (.inr (.inl hp))
  cases table with
  | true => exact absurd hp (h.direct rfl p).2
  | false =>
    refine h.move hc hr.waker h.inv (fun q hq => ⟨update_of_ne hq .., rfl, rfl⟩)
      (fun d hd => ⟨rfl, rfl, fun hx => absurd (hx.eq hlk) hd, id⟩) rfl rfl
      (fun _ => h.cont p (hp.trans_ne nofun))
      (fun _ => ⟨⟨b, hc⟩, hr.waker, ?_, fun _ => hr.lock (.inl hp)⟩) nofun
      (fun _ => hcond) (fun _ hx => absurd (hcond.symm.trans hx) nofun)
    simp [Mon.setLoc]

/-- The process goes to sleep on the channel. -/
theorem Mon.Ok.step_sleep (hs : m.step table chan (.sleep c) = .ok m') : m'.Ok table chan := by
  obtain ⟨p, b, hc, hs⟩ := Sys.current_eq_ok hs
  obtain ⟨hp, hs⟩ := require_bind_eq_ok hs
  obtain ⟨L, hL⟩ := h.inv.table
  obtain ⟨k, L', hL', heq⟩ := sleep_spec chan hL (h.inv.running c p b hc)
  rw [heq, ok_bind] at hs
  cases hs
  have hr := h.at hc (by rw [hp]; rfl)
  have hl : m.sys.lock = some c := hr.lock (.inr hp)
  have hcont : (m.sys.cont p).embryo? = none := h.cont p (hp.trans_ne nofun)
  have hx : (if table then Cont.wait else Cont.asleep).embryo? = none := by cases table <;> rfl
  refine h.move hc hr.waker ?_ (fun q hq => ?_) (fun d hd => ⟨?_, rfl, fun hx => ?_, fun hx => ?_⟩)
    rfl rfl (fun _ => ?_) ?_ ?_ ?_ (fun _ => h.pending p (.inl hp))
  · exact (h.inv.setCont (hx.trans hcont.symm)).leave hc ⟨L', hL'⟩
      fun q hne => .inl (update_state _ q hne)
  · refine ⟨update_of_ne hq .., ?_, ?_⟩
    · rw [Mon.setLoc, Sys.swtch_cont]
      exact update_of_ne hq ..
    · rw [Mon.setLoc, Sys.swtch_t]
      exact update_of_ne hq ..
  · exact Sys.swtch_cpu_of_ne hd b
  · cases table with
    | true => exact absurd (Option.some.inj (hl.symm.trans hx)).symm hd
    | false => exact hx
  · exact absurd (Option.some.inj (hl.symm.trans hx)).symm hd
  · rw [Mon.setLoc, Sys.swtch_cont]
    simpa [Sys.setCont] using hx
  all_goals simp [Mon.setLoc, Loc.locked]

/-- The sleeper that found the condition true releases the lock. -/
theorem Mon.Ok.step_leave (hs : m.step table chan (.leave c) = .ok m') : m'.Ok table chan := by
  obtain ⟨p, b, hc, hs⟩ := Sys.current_eq_ok hs
  obtain ⟨hp, hs⟩ := require_bind_eq_ok hs
  cases hs
  have hr := h.at hc (by rw [hp]; rfl)
  have hlk : m.Holds table c := hr.lk (hp.trans_ne nofun)
  obtain ⟨k, k', he, hk⟩ := Mon.releaseLk_eq hlk
  rw [he]
  refine h.move hc hr.waker (h.inv.setLock k) (fun q hq => ⟨update_of_ne hq .., rfl, rfl⟩)
    (fun d hd => ⟨rfl, rfl, fun hx => absurd (hx.eq hlk) hd, hk d hd⟩) rfl rfl ?_ ?_ ?_ ?_ ?_
  all_goals simp [Mon.setLoc, Loc.locked]

theorem Mon.Ok.step_clear (hs : m.step table chan (.clear c) = .ok m') : m'.Ok table chan := by
  obtain ⟨-, hs⟩ := require_bind_eq_ok hs
  cases hs
  refine ⟨h.inv, h.cont, fun p hp => ?_, h.waker, h.direct, fun _ _ => rfl, fun _ _ => nofun⟩
  obtain ⟨c, hr⟩ := h.runs p hp
  exact ⟨c, hr.cpu, hr.waker, hr.lk, hr.lock⟩

/-- A step of a waker on its processor, where no process with a lock runs. -/
theorem Mon.Ok.wake (hfree : ∀ p, (m.loc p).locked → ¬ m.Runs table p c)
    (hI : m'.sys.Inv) (hloc : m'.loc = m.loc) (hcont : m'.sys.cont = m.sys.cont)
    (hd : ∀ d, d ≠ c → m.Leaves table m' d) (hwaker : m'.waker c ≠ .out → m'.Holds table c)
    (htested : ∀ p, m.loc p = .call ∨ m.loc p = .both ∨ table ∧ m.loc p = .last → m'.cond = false)
    (hpending : ∀ p, m.loc p = .last ∨ m.loc p = .asleep ∧ (m'.sys.t.proc p).state = .sleeping ∧
      (m'.sys.t.proc p).chan = chan → m'.cond → ∃ d, m'.waker d = .set) : m'.Ok table chan := by
  refine ⟨hI, fun q => ?_, fun q hl => ?_, fun d hd' => ?_, ?_, ?_, ?_⟩
  · rw [hloc, hcont]
    exact h.cont q
  · rw [hloc] at hl
    obtain ⟨d, hr⟩ := h.runs q hl
    have hdc : d ≠ c := by
      rintro rfl
      exact hfree q hl hr
    exact ⟨d, hr.of_leaves (hd d hdc) (by rw [hloc])⟩
  · rcases eq_or_ne d c with rfl | hdc
    · exact hwaker hd'
    · exact (hd d hdc).holds (h.waker d ((hd d hdc).waker ▸ hd'))
  · rw [hloc]
    exact h.direct
  · rw [hloc]
    exact htested
  · rw [hloc]
    exact hpending

/-- When a waker gets `lk`, no other waker owes a wakeup. -/
theorem Mon.Ok.step_wakerAcquire (hs : m.step table chan (.wakerAcquire c) = .ok m') :
    m'.Ok table chan := by
  obtain ⟨⟨hbusy, -⟩, hs⟩ := require_bind_eq_ok hs
  obtain ⟨m1, h1, hs⟩ := bind_eq_ok.1 hs
  cases hs
  obtain ⟨hfree, hheld, hlock, k, k', rfl⟩ := Mon.acquireLk_eq_ok h1
  refine h.wake (c := c) (fun p hl hr => ?_) (h.inv.setLock k) rfl rfl
    (fun d hd => ⟨rfl, update_of_ne hd .., fun hx => absurd hx (hfree d), hlock d⟩)
    (fun _ => hheld) h.tested (fun p hp hcond => ?_)
  · obtain ⟨b, hb⟩ := hr.cpu
    exact hbusy (.inr ⟨p, b, hb, hl⟩)
  · -- no waker has `lk`, so none is between its assignment and its wakeup
    obtain ⟨d, hd⟩ := h.pending p hp hcond
    exact absurd (h.waker d (hd.trans_ne nofun)) (hfree d)

/-- While a waker has `lk`, every process with a lock has given `lk` up. -/
theorem Mon.Ok.loc_eq_last (hc : m.waker c ≠ .out) (hp : (m.loc p).locked) :
    table = false ∧ m.loc p = .last := by
  obtain ⟨d, hr⟩ := h.runs p hp
  have hno : ¬ m.Holds table d := by
    intro hd
    rw [← (h.waker c hc).eq hd] at hr
    exact hc hr.waker
  have hlast : m.loc p = .last := by
    by_contra hne
    exact hno (hr.lk hne)
  cases table with
  | false => exact ⟨rfl, hlast⟩
  | true => exact absurd (hr.lock (.inr hlast)) hno

/-- From its assignment on the waker owes the wakeup. -/
theorem Mon.Ok.step_wakerSet (hs : m.step table chan (.wakerSet c) = .ok m') :
    m'.Ok table chan := by
  obtain ⟨hc, hs⟩ := require_bind_eq_ok hs
  cases hs
  have hne : m.waker c ≠ .out := hc.trans_ne nofun
  refine h.wake (c := c) (fun p _ hr => hne hr.waker) h.inv rfl rfl
    (fun d hd => ⟨rfl, update_of_ne hd .., id, id⟩) (fun _ => h.waker c hne)
    (fun p hp => ?_) (fun p _ _ => ⟨c, update_self ..⟩)
  obtain ⟨ht, hl⟩ := h.loc_eq_last (p := p) hne (by rcases hp with hp | hp | ⟨-, hp⟩ <;> rw [hp] <;> rfl)
  rw [hl, ht] at hp
  simp at hp

/-- The waker wakes all sleepers on the channel. -/
theorem Mon.Ok.step_wakerWakeup (hs : m.step table chan (.wakerWakeup c) = .ok m') :
    m'.Ok table chan := by
  obtain ⟨⟨hc, hl⟩, hs⟩ := require_bind_eq_ok hs
  obtain ⟨L, hL⟩ := h.inv.table
  obtain ⟨k, L', hL', -, heq⟩ := wakeup1_spec chan hL
  rw [heq, ok_bind] at hs
  cases hs
  have hne : m.waker c ≠ .out := hc.trans_ne nofun
  refine h.wake (c := c) (fun p _ hr => hne hr.waker) (h.inv.wakes ⟨L', hL'⟩ ?_) rfl rfl
    (fun d hd => ⟨rfl, update_of_ne hd .., id, id⟩) (fun _ => h.waker c hne) h.tested
    (fun p hp _ => ?_)
  · intro q
    dsimp only
    unfold Proc.woken
    split
    · exact .inr ⟨And.left ‹_›, rfl⟩
    · exact .inl rfl
  · rcases hp with hp | ⟨-, hst, hch⟩
    · -- a process past `release(lk)` would have `ptable.lock`
      obtain ⟨ht, -⟩ := h.loc_eq_last (p := p) hne (by rw [hp]; rfl)
      obtain ⟨d, hr⟩ := h.runs p (by rw [hp]; rfl)
      have hnone : m.sys.lock = none := hl.resolve_left (by rw [ht]; exact nofun)
      exact absurd (hnone.symm.trans (hr.lock (.inr hp))) nofun
    · -- and a process that sleeps on the channel has been woken
      obtain ⟨hst', hch'⟩ := Proc.woken_sleeping hst
      refine absurd ?_ hch'
      have hsame : (m.sys.t.proc p).woken chan = m.sys.t.proc p := if_neg fun hx => hch' hx.2
      rwa [← hsame]

/-- The waker releases the lock after its wakeup. -/
theorem Mon.Ok.step_wakerRelease (hs : m.step table chan (.wakerRelease c) = .ok m') :
    m'.Ok table chan := by
  obtain ⟨hc, hs⟩ := require_bind_eq_ok hs
  cases hs
  have hne : m.waker c ≠ .out := hc.trans_ne nofun
  have hheld := h.waker c hne
  obtain ⟨k, k', he, hk⟩ := Mon.releaseLk_eq hheld
  rw [he]
  refine h.wake (c := c) (fun p _ hr => hne hr.waker) (h.inv.setLock k) rfl rfl
    (fun d hd => ⟨rfl, update_of_ne hd .., fun hx => absurd (hx.eq hheld) hd, hk d hd⟩) (fun hx => ?_)
    h.tested (fun p hp hcond => ?_)
  · exact absurd (update_self ..) hx
  · obtain ⟨d, hd⟩ := h.pending p hp hcond
    refine ⟨d, (update_of_ne ?_ ..).trans hd⟩
    rintro rfl
    exact absurd (hc.symm.trans hd) nofun

/-- The rest of the kernel. -/
theorem Mon.Ok.step_env {a : Act} (hs : m.step table chan (.env a) = .ok m') :
    m'.Ok table chan := by
  obtain ⟨he, hs⟩ := require_bind_eq_ok hs
  obtain ⟨s, hs', hs⟩ := bind_eq_ok.1 hs
  cases hs
  have hsp := he.spares h.inv hs'
  have hlk : ∀ c, m.Busy c → m.Holds table c → Mon.Holds table { m with sys := s } c := by
    intro c hc hx
    cases table with
    | true => exact hsp.lock c hc hx
    | false => exact hx
  refine ⟨h.inv.of_step hs', fun p hp => ?_, fun p hp => ?_, fun c hc => ?_, h.direct, h.tested,
    fun p hp => h.pending p ?_⟩
  · rcases hsp.cont p hp with hx | ⟨-, hx⟩
    · rw [hx]
      exact h.cont p hp
    · rw [hx]
      rfl
  · obtain ⟨c, hr⟩ := h.runs p hp
    obtain ⟨b, hb⟩ := hr.cpu
    have hbusy : m.Busy c := .inr ⟨p, b, hb, hp⟩
    exact ⟨c, ⟨b, (hsp.cpu c hbusy).trans hb⟩, hr.waker, fun hx => hlk c hbusy (hr.lk hx),
      fun hx => hsp.lock c hbusy (hr.lock hx)⟩
  · exact hlk c (.inl hc) (h.waker c hc)
  · refine hp.imp_right fun ⟨hl, hst, hch⟩ => ?_
    obtain ⟨hst', hch', -⟩ := hsp.asleep p (by rw [Mon.Inside, hl]; exact nofun) hst
    exact ⟨hl, hst', hch'.symm.trans hch⟩

/-- Every step of the sleepers, the wakers and the machine keeps the invariant. -/
theorem Mon.Ok.step {a : MonAct} (hs : m.step table chan a = .ok m') : m'.Ok table chan := by
  cases a with
  | acquire c => exact h.step_acquire hs
  | test c => exact h.step_test hs
  | lockTable c => exact h.step_lockTable hs
  | unlock c => exact h.step_unlock hs
  | sleep c => exact h.step_sleep hs
  | clear c => exact h.step_clear hs
  | leave c => exact h.step_leave hs
  | wakerAcquire c => exact h.step_wakerAcquire hs
  | wakerSet c => exact h.step_wakerSet hs
  | wakerWakeup c => exact h.step_wakerWakeup hs
  | wakerRelease c => exact h.step_wakerRelease hs
  | env a => exact h.step_env hs

end

theorem Mon.Reachable.ok (h : m.Reachable table chan) : m.Ok table chan := by
  induction h with
  | start hs =>
    exact ⟨hs.inv, fun p hp => absurd rfl hp, fun p hp => absurd hp nofun,
      fun c hc => absurd rfl hc, fun _ p => ⟨nofun, nofun⟩, fun p hp => by simp [Mon.start] at hp,
      fun p hp => by simp [Mon.start] at hp⟩
  | step _ hs ih => exact ih.step hs

/-- No wakeup is lost: when the condition is true and no waker is between its assignment and the end
of its wakeup, no sleeper is asleep on the channel. -/
theorem no_lost_wakeup (h : m.Reachable table chan) :
    ¬ (m.cond ∧ (∀ c, m.waker c ≠ .set) ∧ ∃ p, m.loc p ≠ .out ∧
      (m.sys.t.proc p).state = .sleeping ∧ (m.sys.t.proc p).chan = chan) := by
  rintro ⟨hcond, hset, p, hp, hst, hch⟩
  have hok := h.ok
  have hloc : m.loc p = .asleep := by
    by_contra hne
    have hl : (m.loc p).locked := by
      cases hx : m.loc p <;> simp_all [Loc.locked]
    obtain ⟨c, hr⟩ := hok.runs p hl
    obtain ⟨b, hb⟩ := hr.cpu
    exact absurd (hst.symm.trans (hok.inv.running c p b hb)) nofun
  obtain ⟨c, hc⟩ := hok.pending p (.inr ⟨hloc, hst, hch⟩) hcond
  exact hset c hc

/-- The first process finds the condition false and sleeps; a waker on another processor makes it
true and wakes it up, once the scheduler has found nothing to run. -/
def wakeupRun : List MonAct :=
  [MonAct.env (.enter cpu0), .env (.turn cpu0), .acquire cpu0, .test cpu0, .lockTable cpu0,
    .unlock cpu0, .sleep cpu0, .wakerAcquire cpu1, .wakerSet cpu1] ++
  List.replicate 6 (MonAct.env (.turn cpu0)) ++ [MonAct.wakerWakeup cpu1]

/-- The sleeper of this run is woken. -/
theorem no_lost_wakeup_wakeupRun :
    ∃ m, wakeupRun.foldlM (Mon.step false (.addr 0)) (.start (.init booted) false) = .ok m ∧
      m.cond ∧ (∀ c, m.waker c ≠ .set) ∧ m.loc initSlot = .asleep ∧
      ¬ ((m.sys.t.proc initSlot).state = .sleeping ∧ (m.sys.t.proc initSlot).chan = .addr 0) := by
  have hrun : (wakeupRun.foldlM (Mon.step false (.addr 0))
      (.start (.init booted) false)).toOption.any (fun m => m.cond &&
        decide (∀ c, m.waker c ≠ .set) && decide (m.loc initSlot = .asleep)) = true := by
    decide +kernel
  obtain ⟨m, hm, hf⟩ := exists_ok hrun
  simp only [Bool.and_eq_true, decide_eq_true_eq] at hf
  obtain ⟨⟨hcond, hset⟩, hloc⟩ := hf
  have hr : m.Reachable false (.addr 0) :=
    foldlM_keeps (fun _ => Mon.Reachable.step) (.start (.init userinit_eq)) hm
  refine ⟨m, hm, hcond, hset, hloc, fun ⟨hst, hch⟩ => ?_⟩
  exact no_lost_wakeup hr ⟨hcond, hset, initSlot, by rw [hloc]; exact nofun, hst, hch⟩

end

end TronBoss
