import TronBoss.Proc.Pids

/-!
# The system call `setpriority`

What the call is for: a process that is `RUNNING`, `SLEEPING` or `RUNNABLE` gets the priority and a
whole budget, and moves to the tail of its new ready list; every other call fails and changes
nothing (`SetsPriority`). The code does this for every pid it accepts. It refuses the pids above
32767, which the counter of `allocproc` passes, and it stops at the first process with the pid,
which is the only one until the counter comes around.
-/

namespace TronBoss

open Lib

/-- A priority that `setpriority` accepts. -/
def ValidPriority (priority : Int32) : Prop := ¬ (priority < 0 ∨ Int32.ofNat MAX < priority)

/-- The purpose of `setpriority`: its result `rc` and the table `t'` that it leaves. -/
structure SetsPriority (t : PTable) (L : Lists) (pid priority : Int32) (rc : Int) (t' : PTable) :
    Prop where
  found : ValidPriority priority → ∀ p, (t.proc p).live → (t.proc p).pid = pid.toUInt32 →
    if (t.proc p).priority = priority.toUInt32 then rc = -5 ∧ t' = t
    else rc = 0 ∧ ∃ L', Reranked t L p priority.toUInt32 t' L'
  refused : ¬ (ValidPriority priority ∧ ∃ p, (t.proc p).live ∧ (t.proc p).pid = pid.toUInt32) →
    rc < 0 ∧ t' = t

/-- The pid is one that the call accepts, and names one process, or processes that have the
priority. -/
def Settable (t : PTable) (pid priority : Int32) : Prop :=
  ValidPriority priority → ∀ p q, (t.proc p).live → (t.proc p).pid = pid.toUInt32 →
    (t.proc q).live → (t.proc q).pid = pid.toUInt32 →
    (0 ≤ pid ∧ pid ≤ 32767) ∧
      (p = q ∨ (t.proc p).priority = priority.toUInt32 ∧ (t.proc q).priority = priority.toUInt32)

section
variable {t t' : PTable} {L L₁ L₂ : Lists} {pid priority : Int32} {rc : Int} {p q : Slot}

theorem pid_accepted : ¬ (pid < 0 ∨ 32767 < pid) ↔ 0 ≤ pid ∧ pid ≤ 32767 := by
  rw [not_or, Int32.not_lt, Int32.not_lt]

/-- Only one process gets a new priority. -/
theorem Reranked.eq {priority : UInt32} (hp : Reranked t L p priority t' L₁)
    (hq : Reranked t L q priority t' L₂) (hne : (t.proc q).priority ≠ priority) : p = q := by
  refine Classical.not_not.1 fun hpq => hne ?_
  have h := congrArg Proc.priority (congrFun (hp.proc.symm.trans hq.proc) q)
  rwa [Function.update_of_ne (Ne.symm hpq), Function.update_self] at h

/-- A call that meets its purpose has a pid that it accepts and that names one process. -/
theorem SetsPriority.settable (h : SetsPriority t L pid priority rc t')
    (hset : PrioritySet t L pid priority rc t') : Settable t pid priority := by
  intro hv p q hp hpid hq hqid
  have hfp := h.found hv p hp hpid
  have hfq := h.found hv q hq hqid
  refine ⟨?_, ?_⟩
  · cases hset with
    | badPid _ =>
      split at hfp
      · exact absurd hfp.1 (by decide)
      · exact absurd hfp.1 (by decide)
    | badPriority _ hbad => exact absurd hbad hv
    | missing hacc _ _ | same hacc _ _ _ _ | set hacc _ _ _ _ _ => exact pid_accepted.1 hacc
  · split at hfp
    · next hpr =>
      split at hfq
      · next hqr => exact .inr ⟨hpr, hqr⟩
      · exact absurd (hfp.1.symm.trans hfq.1) (by decide)
    · split at hfq
      · exact absurd (hfp.1.symm.trans hfq.1) (by decide)
      · next hqr =>
        obtain ⟨-, L₁, h1⟩ := hfp
        obtain ⟨-, L₂, h2⟩ := hfq
        exact .inl (h1.eq h2 hqr)

/-- The code meets the purpose when the pid is accepted and names one process. -/
theorem PrioritySet.sets (hset : PrioritySet t L pid priority rc t')
    (h : Settable t pid priority) : SetsPriority t L pid priority rc t' := by
  cases hset with
  | badPid hbad =>
    refine ⟨fun hv p hp hpid => ?_, fun _ => ⟨by decide, rfl⟩⟩
    exact absurd hbad (pid_accepted.2 (h hv p p hp hpid hp hpid).1)
  | badPriority _ hbad => exact ⟨fun hv => absurd hbad hv, fun _ => ⟨by decide, rfl⟩⟩
  | missing _ _ hno =>
    exact ⟨fun _ p hp hpid => absurd hpid (hno p hp), fun _ => ⟨by decide, rfl⟩⟩
  | same _ hv hp hpid he =>
    refine ⟨fun _ q hq hqid => ?_, fun hno => absurd ⟨hv, _, hp, hpid⟩ hno⟩
    have hqe : (t.proc q).priority = priority.toUInt32 := by
      rcases (h hv _ q hp hpid hq hqid).2 with rfl | ⟨-, hqe⟩
      · exact he
      · exact hqe
    rw [if_pos hqe]
    exact ⟨rfl, rfl⟩
  | set _ hv hp hpid he hr =>
    refine ⟨fun _ q hq hqid => ?_, fun hno => absurd ⟨hv, _, hp, hpid⟩ hno⟩
    rcases (h hv _ q hp hpid hq hqid).2 with rfl | ⟨hpe, -⟩
    · rw [if_neg he]
      exact ⟨rfl, _, hr⟩
    · exact absurd hpe he

/-- In every reachable table and for all pids and priorities, `setpriority` returns, and it does
what it is for exactly if the pid is at most 32767 where it names a process, and names no two of
which one lacks the priority. -/
theorem setpriority_meets_iff {s : Sys} (h : s.Reachable) :
    ∃ L, ListInv s.t.proc s.t.links L ∧ ∀ pid priority, ∃ rc t',
      setpriority pid priority s.t = .ok (rc, t') ∧
      (SetsPriority s.t L pid priority rc t' ↔ Settable s.t pid priority) := by
  obtain ⟨L, hL⟩ := h.inv.table
  refine ⟨L, hL, fun pid priority => ?_⟩
  obtain ⟨rc, t', heq, hset⟩ := setpriority_cases pid priority hL
  exact ⟨rc, t', heq, fun hs => hs.settable hset, hset.sets⟩

/-- The booted machine: `initproc` has the pid one. -/
theorem setpriority_meets_iff_booted :
    ∃ L rc t', ListInv booted.proc booted.links L ∧ setpriority 1 2 booted = .ok (rc, t') ∧
      SetsPriority booted L 1 2 rc t' := by
  obtain ⟨L, hL, h⟩ := setpriority_meets_iff (.init userinit_eq)
  obtain ⟨rc, t', heq, hiff⟩ := h 1 2
  refine ⟨L, rc, t', hL, heq, hiff.2 fun _ p q hp _ hq _ => ⟨by decide, .inl ?_⟩⟩
  have huse : ∀ r, (booted.proc r).live → r = initSlot := by
    decide +kernel
  exact (huse p hp).trans (huse q hq).symm

/-- Once the counter has passed 32767, `setpriority` refuses the pid of a runnable process. -/
theorem setpriority_refuses_largePid :
    ∃ (s : Sys) (L : Lists) (p : Slot), s.Reachable ∧ ListInv s.t.proc s.t.links L ∧
      (s.t.proc p).state = .runnable ∧ (s.t.proc p).pid = 32768 ∧
      setpriority 32768 1 s.t = .ok (-2, s.t) ∧ ¬ SetsPriority s.t L 32768 1 (-2) s.t := by
  have hrun : (countedRun 32768 (forkActs cpu0)).toOption.any (fun s => decide
      ((s.t.proc childSlot).state = .runnable ∧ (s.t.proc childSlot).pid = 32768)) = true := by
    decide +kernel
  obtain ⟨s, hs, hf⟩ := exists_ok hrun
  obtain ⟨hst, hpid⟩ := of_decide_eq_true hf
  have hr := reachable_countedRun hs
  obtain ⟨L, hL⟩ := hr.inv.table
  refine ⟨s, L, childSlot, hr, hL, hst, hpid, if_pos (.inr (by decide)), fun h => ?_⟩
  have hfound := h.found (by unfold ValidPriority; decide) childSlot (.inr (.inr hst)) hpid
  split at hfound
  · exact absurd hfound.1 (by decide)
  · exact absurd hfound.1 (by decide)

end

end TronBoss
