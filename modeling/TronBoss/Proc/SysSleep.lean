import TronBoss.Lib.Bytes
import TronBoss.Proc.Budget

/-!
# The time that `sys_sleep` takes

`sys_sleep` of `sysproc.c` and the timer interrupt of `trap.c`, on top of the machine of
`TronBoss.Proc.System`. The timer is a matter of processor 0, which counts the tick and then wakes
up the processes that sleep on `&ticks`. `sys_sleep` calls `sleep` without a lock: between its test
of the time and the section of `sleep` the timer can count a tick and wake nobody up. The number of
ticks is compared as an unsigned one, so that a negative `n` is a long time.
-/

namespace TronBoss

open Lib Function

/-- Where a process is in `sys_sleep`. -/
inductive NapLoc where
  | out
  /-- Before the test of the loop. -/
  | test (ticks0 : UInt32) (n : Int32)
  /-- After the test, before the section of `sleep`. -/
  | call (ticks0 : UInt32) (n : Int32)
  /-- In `sleep`, asleep or on the way back. -/
  | asleep (ticks0 : UInt32) (n : Int32)
  /-- After the return. -/
  | done (r : Int32)
  deriving DecidableEq, Repr

/-- The process is in `sys_sleep`. -/
def NapLoc.inside : NapLoc → Bool
  | .out | .done _ => false
  | _ => true

/-- The machine with the timer and the processes in `sys_sleep`. -/
structure Clock where
  sys : Sys
  loc : Slot → NapLoc
  /-- Processor 0 has counted a tick and not yet finished its wakeup. -/
  pending : Bool

inductive ClockAct where
  /-- `ticks0 = ticks`, for the argument `n`. -/
  | start (c : Fin NCPU) (n : Int32)
  /-- The test of the loop, and of `proc->killed`. -/
  | test (c : Fin NCPU)
  /-- The section of `sleep`. -/
  | sleep (c : Fin NCPU)
  /-- The return of `sleep`. -/
  | back (c : Fin NCPU)
  /-- `atom_inc(&ticks)` in the timer interrupt. -/
  | tick
  /-- `wakeup(&ticks)` in the timer interrupt. -/
  | wakeup
  | env (a : Act)
  deriving DecidableEq, Repr

def Clock.setLoc (k : Clock) (p : Slot) (x : NapLoc) : Clock := { k with loc := update k.loc p x }

/-- Processor 0 is in the timer interrupt. -/
def Clock.Busy (k : Clock) (c : Fin NCPU) : Prop := k.pending ∧ c = cpu0

def Clock.Inside (k : Clock) (p : Slot) : Prop := (k.loc p).inside

instance Clock.decidableBusy (k : Clock) (c : Fin NCPU) : Decidable (k.Busy c) :=
  inferInstanceAs (Decidable (_ ∧ _))

instance Clock.decidableInside (k : Clock) (p : Slot) : Decidable (k.Inside p) :=
  inferInstanceAs (Decidable (_ = _))

/-- Where the test of the loop leads. The `int` is converted for the comparison. -/
def Clock.tested (k : Clock) (p : Slot) (ticks0 : UInt32) (n : Int32) : NapLoc :=
  if k.sys.t.ticks - ticks0 < n.toUInt32 then
    if (k.sys.t.proc p).killed then .done (-1) else .call ticks0 n
  else .done 0

section
variable (chan : Chan)

/-- One step, where `chan` is `&ticks`. -/
def Clock.step (k : Clock) : ClockAct → Except Stop Clock
  | .start c n => do
    let (p, _) ← k.sys.current c
    require (¬ k.Busy c ∧ ¬ k.Inside p ∧ k.sys.cont p = .other)
    return k.setLoc p (.test k.sys.t.ticks n)
  | .test c => do
    let (p, _) ← k.sys.current c
    require (¬ k.Busy c)
    match k.loc p with
    | .test ticks0 n => return k.setLoc p (k.tested p ticks0 n)
    | _ => .error .disabled
  | .sleep c => do
    let (p, _) ← k.sys.current c
    require (¬ k.Busy c)
    match k.loc p with
    | .call ticks0 n =>
      let s ← k.sys.step (.sleep c chan)
      return { k with sys := s }.setLoc p (.asleep ticks0 n)
    | _ => .error .disabled
  | .back c => do
    let (p, _) ← k.sys.current c
    require (¬ k.Busy c)
    match k.loc p with
    | .asleep ticks0 n => return k.setLoc p (.test ticks0 n)
    | _ => .error .disabled
  | .tick => do
    -- the interrupt finds processor 0 with interrupts on
    require (¬ k.pending ∧ k.sys.lock ≠ some cpu0)
    let s ← k.sys.step .tick
    return { k with sys := s, pending := true }
  | .wakeup => do
    require k.pending
    let s ← k.sys.step (.wakeup chan)
    return { k with sys := s, pending := false }
  | .env a => do
    require (a ≠ .tick ∧ k.sys.Env k.Busy k.Inside a)
    let s ← k.sys.step a
    return { k with sys := s }

/-- The running machine `s`, when no process is in `sys_sleep`. -/
def Clock.start (s : Sys) : Clock := ⟨s, fun _ => .out, false⟩

/-- The states that are reached by steps that satisfy a condition. -/
inductive Clock.Reachable (P : Clock → ClockAct → Prop) : Clock → Prop
  | start {s : Sys} : s.Reachable → Reachable P (.start s)
  | step {k k' : Clock} {a : ClockAct} : Reachable P k → P k a → k.step chan a = .ok k' →
    Reachable P k'

/-- The `n` ticks from `ticks0` on are over. -/
def Clock.Over (k : Clock) (ticks0 : UInt32) (n : Int32) : Prop :=
  n.toInt ≤ (k.sys.t.ticks - ticks0).toNat

/-- The process sleeps in `sys_sleep`. -/
def Clock.Sleeps (k : Clock) (p : Slot) (ticks0 : UInt32) (n : Int32) : Prop :=
  k.loc p = .asleep ticks0 n ∧ (k.sys.t.proc p).state = .sleeping ∧ (k.sys.t.proc p).chan = chan

/-- A process sleeps only while its time is not over or the wakeup of the tick is still to come, and
a call that is not to wait returns `0` at its first test. -/
structure Clock.Right (k : Clock) : Prop where
  awake : ∀ p ticks0 n, k.Sleeps chan p ticks0 n → k.Over ticks0 n → k.pending
  zero : ∀ p ticks0 n, k.loc p = .test ticks0 n → n.toInt ≤ 0 → k.tested p ticks0 n = .done 0
  pos : ∀ p ticks0 n, k.loc p = .call ticks0 n ∨ k.loc p = .asleep ticks0 n → 0 < n.toInt

/-- The argument is not negative, and when a process goes to sleep its time is not over, or the
wakeup of the tick that ended it is still to come. -/
def Clock.Meets (k : Clock) : ClockAct → Prop
  | .start _ n => 0 ≤ n.toInt
  | .sleep c => ∀ p b ticks0 n, k.sys.cpu c = .run p b → k.loc p = .call ticks0 n →
    k.Over ticks0 n → k.pending
  | _ => True

end

section
variable {chan : Chan} {k k' : Clock} {p : Slot} {ticks0 : UInt32} {n : Int32} {s : Sys} {a : Act}

/-- What holds between two steps that meet the condition. -/
structure Clock.Ok (chan : Chan) (k : Clock) : Prop where
  inv : k.sys.Inv
  awake : ∀ p ticks0 n, k.Sleeps chan p ticks0 n → k.Over ticks0 n → k.pending
  nonneg : ∀ p ticks0 n, k.loc p = .test ticks0 n → 0 ≤ n.toInt
  pos : ∀ p ticks0 n, k.loc p = .call ticks0 n ∨ k.loc p = .asleep ticks0 n → 0 < n.toInt

/-- No number of ticks is below zero of them. -/
theorem Clock.tested_zero (hn : n.toInt = 0) : k.tested p ticks0 n = .done 0 := by
  refine if_neg ?_
  rw [UInt32.lt_iff_toNat_lt, toNat_toUInt32 n, hn]
  omega

/-- A process that goes to sleep has ticks to wait for. -/
theorem Clock.tested_cases (hn : 0 ≤ n.toInt) : (∃ r, k.tested p ticks0 n = .done r) ∨
    k.tested p ticks0 n = .call ticks0 n ∧ 0 < n.toInt := by
  rcases hn.eq_or_lt with hz | hpos
  · exact .inl ⟨0, tested_zero hz.symm⟩
  · rw [tested]
    split
    · split
      · exact .inl ⟨-1, rfl⟩
      · exact .inr ⟨rfl, hpos⟩
    · exact .inl ⟨0, rfl⟩

/-- A negative number of ticks is compared as a large one. -/
theorem Clock.tested_ne_zero (hn : n.toInt < 0) :
    k.tested p k.sys.t.ticks n ≠ .done 0 := by
  have hlt : k.sys.t.ticks - k.sys.t.ticks < n.toUInt32 := by
    have hb := n.le_toInt
    rw [UInt32.lt_iff_toNat_lt, UInt32.sub_self, toNat_toUInt32 n]
    have hm : n.toInt % 2 ^ 32 = n.toInt + 2 ^ 32 := by omega
    rw [hm, UInt32.toNat_zero]
    omega
  rw [tested, if_pos hlt]
  split <;> simp

theorem Clock.Ok.right (h : k.Ok chan) : k.Right chan :=
  ⟨h.awake, fun p ticks0 n hp hn => tested_zero (le_antisymm hn (h.nonneg p ticks0 n hp)), h.pos⟩

/-- A step of a process in `sys_sleep` itself. -/
theorem Clock.Ok.setLoc {x : NapLoc} (h : k.Ok chan) (hasleep : ∀ t m, x ≠ .asleep t m)
    (htest : ∀ t m, x = .test t m → 0 ≤ m.toInt) (hcall : ∀ t m, x = .call t m → 0 < m.toInt) :
    (k.setLoc p x).Ok chan := by
  refine ⟨h.inv, fun q t m hq => ?_, fun q t m hq => ?_, fun q t m hq => ?_⟩
  all_goals rcases eq_or_ne q p with rfl | hne
  · exact absurd ((update_self ..).symm.trans hq.1) (hasleep t m)
  · exact h.awake q t m ⟨(update_of_ne hne ..).symm.trans hq.1, hq.2⟩
  · exact htest t m ((update_self ..).symm.trans hq)
  · exact h.nonneg q t m ((update_of_ne hne ..).symm.trans hq)
  · simp only [Clock.setLoc, update_self] at hq
    exact hq.elim (hcall t m) fun hx => absurd hx (hasleep t m)
  · simp only [Clock.setLoc, update_of_ne hne] at hq
    exact h.pos q t m hq

/-- A process goes to sleep by a step of its own. -/
theorem Clock.Ok.sleeps_of_step (h : k.Ok chan) (hs : k.sys.step a = .ok s)
    (hown : ∀ c b, k.sys.cpu c = .run p b → a.cpu? = some c → a = .yield c)
    (hp : Clock.Sleeps chan { k with sys := s } p ticks0 n) : k.Sleeps chan p ticks0 n := by
  obtain ⟨hloc, hst, hch⟩ := hp
  rcases (h.inv.change hs p).asleep hst with ⟨hst', hch', -⟩ | ⟨c, b, hc, ha, hy⟩
  · exact ⟨hloc, hst', hch'.symm.trans hch⟩
  · exact absurd (hown c b hc ha) hy

theorem Clock.Over.of_step (h : k.Ok chan) (hs : k.sys.step a = .ok s) (ha : a ≠ .tick) :
    Clock.Over { k with sys := s } ticks0 n ↔ k.Over ticks0 n := by
  have hticks := (h.inv.trans hs).ticks
  rw [if_neg ha] at hticks
  rw [Clock.Over, Clock.Over, hticks]

/-- The section of `sleep`: the process then sleeps on the channel. -/
theorem Clock.Ok.sleep {c : Fin NCPU} {b : Bool} (h : k.Ok chan) (hc : k.sys.cpu c = .run p b)
    (hs : k.sys.step (.sleep c chan) = .ok s) :
    (s.t.proc p).state = .sleeping ∧ (s.t.proc p).chan = chan := by
  cases h.inv.trans hs with
  | forkFail _ _ _ hp => obtain ⟨⟨⟩, -⟩ | ⟨⟨⟩, -⟩ := hp
  | sleep _ hc' _ _ =>
    cases hc.symm.trans hc'
    obtain ⟨x, y, z, e⟩ := Proc.slept_eq (k.sys.t.proc p) k.sys.t.ticks chan
    rw [Sys.swtch_t, PTable.put_proc, update_self, e]
    exact ⟨rfl, rfl⟩

section
variable {c : Fin NCPU} (h : k.Ok chan)
include h

theorem Clock.Ok.step_start {n : Int32} (hm : k.Meets (.start c n))
    (hs : k.step chan (.start c n) = .ok k') : k'.Ok chan := by
  obtain ⟨p, b, hc, hs⟩ := Sys.current_eq_ok hs
  obtain ⟨-, hs⟩ := require_bind_eq_ok hs
  cases hs
  refine h.setLoc nofun ?_ nofun
  rintro _ _ ⟨⟩
  exact hm

/-- The test ends the call, or the process goes on to sleep for a positive time. -/
theorem Clock.Ok.step_test (hs : k.step chan (.test c) = .ok k') : k'.Ok chan := by
  obtain ⟨p, b, hc, hs⟩ := Sys.current_eq_ok hs
  obtain ⟨-, hs⟩ := require_bind_eq_ok hs
  cases hp : k.loc p with
  | test t m =>
    rw [hp] at hs
    cases hs
    rcases tested_cases (k := k) (p := p) (h.nonneg p t m hp) with ⟨r, hx⟩ | ⟨hx, hpos⟩
    · rw [hx]
      exact h.setLoc nofun nofun nofun
    · rw [hx]
      refine h.setLoc nofun nofun ?_
      rintro _ _ ⟨⟩
      exact hpos
  | _ =>
    rw [hp] at hs
    cases hs

/-- The process goes to sleep before its time is over; the others are as before. -/
theorem Clock.Ok.step_sleep (hm : k.Meets (.sleep c)) (hs : k.step chan (.sleep c) = .ok k') :
    k'.Ok chan := by
  obtain ⟨p, b, hc, hs⟩ := Sys.current_eq_ok hs
  obtain ⟨-, hs⟩ := require_bind_eq_ok hs
  cases hp : k.loc p with
  | call t m =>
    rw [hp] at hs
    obtain ⟨s, hs', hs⟩ := bind_eq_ok.1 hs
    cases hs
    refine ⟨h.inv.of_step hs', fun q t' m' hq hover => ?_, fun q t' m' hq => ?_,
      fun q t' m' hq => ?_⟩
    all_goals rcases eq_or_ne q p with rfl | hne
    · cases (update_self ..).symm.trans hq.1
      exact hm q b t m hc hp ((Over.of_step h hs' nofun).1 hover)
    · refine h.awake q t' m' (h.sleeps_of_step hs' (fun c' b' hc' ha => ?_) ?_)
        ((Over.of_step h hs' nofun).1 hover)
      · cases ha
        exact absurd (CpuState.run.inj (hc'.symm.trans hc)).1 hne
      · exact ⟨(update_of_ne hne ..).symm.trans hq.1, hq.2⟩
    · cases (update_self ..).symm.trans hq
    · exact h.nonneg q t' m' ((update_of_ne hne ..).symm.trans hq)
    · simp only [Clock.setLoc, update_self] at hq
      cases hq.resolve_left nofun
      exact h.pos q t m (.inl hp)
    · simp only [Clock.setLoc, update_of_ne hne] at hq
      exact h.pos q t' m' hq
  | _ =>
    rw [hp] at hs
    cases hs

theorem Clock.Ok.step_back (hs : k.step chan (.back c) = .ok k') : k'.Ok chan := by
  obtain ⟨p, b, hc, hs⟩ := Sys.current_eq_ok hs
  obtain ⟨-, hs⟩ := require_bind_eq_ok hs
  cases hp : k.loc p with
  | asleep t m =>
    rw [hp] at hs
    cases hs
    refine h.setLoc nofun ?_ nofun
    rintro _ _ ⟨⟩
    exact (h.pos p t m (.inr hp)).le
  | _ =>
    rw [hp] at hs
    cases hs

/-- After the wakeup nobody sleeps on the channel. -/
theorem Clock.Ok.step_wakeup (hs : k.step chan .wakeup = .ok k') : k'.Ok chan := by
  obtain ⟨hpend, hs⟩ := require_bind_eq_ok hs
  obtain ⟨s, hs', hs⟩ := bind_eq_ok.1 hs
  cases hs
  refine ⟨h.inv.of_step hs', fun p t m ⟨_, hst, hch⟩ => ?_, h.nonneg, h.pos⟩
  cases h.inv.trans hs' with
  | forkFail _ _ _ hp => obtain ⟨⟨⟩, -⟩ | ⟨⟨⟩, -⟩ := hp
  | wakeup _ _ =>
    have hne := (Proc.woken_sleeping hst).2
    have hsame : (k.sys.t.proc p).woken chan = k.sys.t.proc p := if_neg fun hx => hne hx.2
    exact absurd ((congrArg Proc.chan hsame).symm.trans hch) hne

theorem Clock.Ok.step_env {a : Act} (hs : k.step chan (.env a) = .ok k') : k'.Ok chan := by
  obtain ⟨⟨ha, he⟩, hs⟩ := require_bind_eq_ok hs
  obtain ⟨s, hs', hs⟩ := bind_eq_ok.1 hs
  cases hs
  refine ⟨h.inv.of_step hs', fun p t m hp => ?_, h.nonneg, h.pos⟩
  rw [Over.of_step h hs' ha]
  refine h.awake p t m (h.sleeps_of_step hs' (fun c b hc hc' => ?_) hp)
  exact (he c hc').2 p b hc (by rw [Clock.Inside, hp.1]; rfl)

/-- A step that meets the condition keeps the invariant. -/
theorem Clock.Ok.step {a : ClockAct} (hm : k.Meets a) (hs : k.step chan a = .ok k') :
    k'.Ok chan := by
  cases a with
  | start c n => exact h.step_start hm hs
  | test c => exact h.step_test hs
  | sleep c => exact h.step_sleep hm hs
  | back c => exact h.step_back hs
  | tick =>
    obtain ⟨-, hs⟩ := require_bind_eq_ok hs
    obtain ⟨s, hs', hs⟩ := bind_eq_ok.1 hs
    cases hs
    exact ⟨h.inv.of_step hs', fun _ _ _ _ _ => rfl, h.nonneg, h.pos⟩
  | wakeup => exact h.step_wakeup hs
  | env a => exact h.step_env hs

end

theorem Clock.Reachable.ok (h : k.Reachable chan Clock.Meets) : k.Ok chan := by
  induction h with
  | start hs => exact ⟨hs.inv, fun _ _ _ hp => absurd hp.1 nofun, nofun, fun _ _ _ => nofun⟩
  | step _ hm hs ih => exact ih.step hm hs

/-- `sys_sleep` is right as long as no argument is negative and no process goes to sleep after the
wakeup that ends its time; the first step that does not keep to this leads to a state that is not
right. -/
theorem sys_sleep_right_iff (h : k.Reachable chan Clock.Meets) :
    k.Right chan ∧ ∀ a k', k.step chan a = .ok k' → (k'.Right chan ↔ k.Meets a) := by
  have hok := h.ok
  refine ⟨hok.right, fun a k' hs => ⟨fun hr => ?_, fun hm => (hok.step hm hs).right⟩⟩
  cases a with
  | start c n =>
    obtain ⟨p, b, hc, hs⟩ := Sys.current_eq_ok hs
    obtain ⟨-, hs⟩ := require_bind_eq_ok hs
    cases hs
    by_contra hn
    rw [Clock.Meets, Int.not_le] at hn
    exact Clock.tested_ne_zero hn (hr.zero p _ n (update_self ..) hn.le)
  | sleep c =>
    intro p b t m hc hp hover
    obtain ⟨q, b', hc', hs⟩ := Sys.current_eq_ok hs
    cases hc.symm.trans hc'
    obtain ⟨-, hs⟩ := require_bind_eq_ok hs
    rw [hp] at hs
    obtain ⟨s, hs', hs⟩ := bind_eq_ok.1 hs
    cases hs
    exact hr.awake p t m ⟨update_self .., hok.sleep hc hs'⟩
      ((Clock.Over.of_step hok hs' nofun).2 hover)
  | _ => trivial

/-- The steps `as` when the first process is ready to run. -/
def Clock.run (as : List ClockAct) : Except Stop Clock :=
  as.foldlM (Clock.step (.addr 0)) (.start (.init booted))

/-- The first process is to sleep for `n` ticks, and the timer interrupts it after its test. -/
def napRun (n : Int32) : List ClockAct :=
  [.env (.enter cpu0), .env (.turn cpu0), .start cpu0 n, .test cpu0, .tick, .wakeup]

/-- The state after the wakeup is right; what the process does next is to be looked at. -/
theorem sys_sleep_right_iff_napRun : ∃ k, Clock.run (napRun 1) = .ok k ∧ k.Right (.addr 0) ∧
    ∀ k', k.step (.addr 0) (.sleep cpu0) = .ok k' →
      (k'.Right (.addr 0) ↔ k.Meets (.sleep cpu0)) := by
  have hrun : (Clock.run (napRun 1)).toOption.any (fun _ => true) = true := by decide +kernel
  obtain ⟨k, hk, -⟩ := exists_ok hrun
  have hr : k.Reachable (.addr 0) Clock.Meets := by
    refine foldlM_keeps (fun {k a k'} ha h hs => h.step ?_ hs) (.start (.init userinit_eq)) hk
    simp only [napRun, List.mem_cons, List.not_mem_nil, or_false] at ha
    rcases ha with rfl | rfl | rfl | rfl | rfl | rfl
    case inr.inr.inl => exact (by decide : (0 : Int) ≤ (1 : Int32).toInt)
    all_goals trivial
  exact ⟨k, hk, (sys_sleep_right_iff hr).1, (sys_sleep_right_iff hr).2 (.sleep cpu0)⟩

/-- A process that asks for one tick is asleep after it, with no wakeup to come; one that asks for
`-1` sleeps. -/
theorem sys_sleep_oversleeps :
    (∃ k, Clock.run (napRun 1 ++ [.sleep cpu0]) = .ok k ∧ k.Sleeps (.addr 0) initSlot 0 1 ∧
      k.Over 0 1 ∧ k.pending = false) ∧
    ∃ k, Clock.run (napRun (-1) ++ [.sleep cpu0]) = .ok k ∧
      k.Sleeps (.addr 0) initSlot 0 (-1) := by
  have hrun : ([1, -1] : List Int32).all (fun n =>
      (Clock.run (napRun n ++ [.sleep cpu0])).toOption.any fun k =>
        decide (k.loc initSlot = .asleep 0 n ∧ (k.sys.t.proc initSlot).state = .sleeping ∧
          (k.sys.t.proc initSlot).chan = .addr 0 ∧ k.sys.t.ticks = 1 ∧ k.pending = false)) = true := by
    decide +kernel
  rw [List.all_eq_true] at hrun
  obtain ⟨k, hk, hf⟩ := exists_ok (hrun 1 (by decide))
  obtain ⟨k', hk', hf'⟩ := exists_ok (hrun (-1) (by decide))
  obtain ⟨hloc, hst, hch, hticks, hpend⟩ := of_decide_eq_true hf
  obtain ⟨hloc', hst', hch', -⟩ := of_decide_eq_true hf'
  refine ⟨⟨k, hk, ⟨hloc, hst, hch⟩, ?_, hpend⟩, k', hk', hloc', hst', hch'⟩
  rw [Clock.Over, hticks]
  decide

end

end TronBoss
