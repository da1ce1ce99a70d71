import TronBoss.Proc.Budget

/-!
# The time that a process has used

`scheduler` stamps a process with the time of its dispatch, and `sched` adds the ticks since the
stamp to `cpu_ticks_total` on every way of leaving the processor. A run is followed with the number
of its ticks and with the processes that have run since their slots were last free (`Sys.Timed`).
As long as `ticks` has not come around, the time that a process has used and the time of its current
slice are together at most its age (`Proc.OnClock`).
-/

namespace TronBoss

open Lib

/-- A process that is past `allocproc` and not reaped. -/
def Proc.Live (q : Proc) : Prop := q.state ≠ .unused ∧ q.state ≠ .embryo

/-- The processes that have run since their slots were last free, after a step to `s`. -/
def Sys.ranBy (s : Sys) (ran : Slot → Bool) (q : Slot) : Bool :=
  (s.t.proc q).state = .running || ran q && (s.t.proc q).state ≠ .unused

/-- The states of the runs from `userinit`, with the number of ticks and the processes that have
run. -/
inductive Sys.Timed : Nat → (Slot → Bool) → Sys → Prop
  | init {t : PTable} : userinit .zero = .ok t → Timed 0 (fun _ => false) (.init t)
  | step {n : Nat} {ran : Slot → Bool} {s s' : Sys} {a : Act} : Timed n ran s →
      s.step a = .ok s' → Timed (if a = .tick then n + 1 else n) (s'.ranBy ran) s'

/-- The times of a process after `n` ticks, when `ran` says whether it has run: the stamp is not
ahead of the clock, and the time used is within the age. -/
structure Proc.OnClock (n : Nat) (ran : Bool) (q : Proc) : Prop where
  stamp : q.state = .running → q.cpuTicksIn.toNat ≤ n
  used : q.startTicks.toNat + q.cpuTicksTotal.toNat +
    (if q.state = .running then n - q.cpuTicksIn.toNat else 0) ≤ n
  ran : ran = false → q.cpuTicksTotal = 0 ∧ q.state ≠ .running

section
variable {s s' : Sys} {a : Act} {n : Nat} {ran : Slot → Bool} {r k : Bool} {q x : Proc}

theorem Sys.Timed.reachable (h : s.Timed n ran) : s.Reachable := by
  induction h with
  | init h => exact .init h
  | step _ hs ih => exact ih.step hs

/-- A run, with its ticks. -/
theorem Sys.Timed.run : ∀ {as : List Act} {n ran s}, Sys.Timed n ran s → s.run as = .ok s' →
    ∃ ran', s'.Timed (n + as.count .tick) ran'
  | [], _, ran, _, h, hr => by
    cases hr
    exact ⟨ran, h⟩
  | a :: as, n, _, _, h, hr => by
    rw [Sys.run, List.foldlM_cons] at hr
    obtain ⟨s1, h1, h2⟩ := bind_eq_ok.1 hr
    obtain ⟨ran', h'⟩ := (h.step h1).run h2
    refine ⟨ran', ?_⟩
    split at h'
    · next ha => rwa [ha, List.count_cons_self, ← Nat.add_assoc, Nat.add_right_comm]
    · next ha => rwa [List.count_cons_of_ne ha]

/-- The clock goes on. -/
theorem Proc.OnClock.tick (h : q.OnClock n r) : q.OnClock (n + 1) r where
  stamp hr := (h.stamp hr).trans n.le_succ
  used := by
    have hu := h.used
    split
    · next hr =>
      rw [if_pos hr] at hu
      omega
    · next hr =>
      rw [if_neg hr] at hu
      omega
  ran := h.ran

/-- A change that leaves the times alone. -/
theorem Proc.OnClock.keep (h : q.OnClock n r) (hst : x.state = .running ↔ q.state = .running)
    (hstart : x.startTicks = q.startTicks) (htotal : x.cpuTicksTotal = q.cpuTicksTotal)
    (hin : x.cpuTicksIn = q.cpuTicksIn) (hr : k = false → r = false) : x.OnClock n k where
  stamp h' := hin ▸ h.stamp (hst.1 h')
  used := by
    simp only [hst, hstart, htotal, hin]
    exact h.used
  ran h' := by
    rw [htotal, Ne, hst]
    exact h.ran (hr h')

/-- A process leaves its processor and is charged for the time since its dispatch. -/
theorem Proc.OnClock.charge {ticks : UInt32} (h : q.OnClock n r) (hn : ticks.toNat = n)
    (hq : q.state = .running) (hst : x.state ≠ .running) (hstart : x.startTicks = q.startTicks)
    (htotal : x.cpuTicksTotal = q.cpuTicksTotal + (ticks - q.cpuTicksIn))
    (hr : k = false → r = false) :
    x.OnClock n k ∧ q.cpuTicksTotal ≤ x.cpuTicksTotal ∧
      (q.state ≠ .running → x.cpuTicksTotal = q.cpuTicksTotal) := by
  have hin := h.stamp hq
  have hu := h.used
  rw [if_pos hq] at hu
  have hlt := ticks.toNat_lt
  have hsub : (ticks - q.cpuTicksIn).toNat = n - q.cpuTicksIn.toNat := by
    rw [UInt32.toNat_sub_of_le _ _ (by rw [UInt32.le_iff_toNat_le]; omega), hn]
  have hadd : x.cpuTicksTotal.toNat = q.cpuTicksTotal.toNat + (n - q.cpuTicksIn.toNat) := by
    rw [htotal, UInt32.toNat_add, hsub]
    exact Nat.mod_eq_of_lt (by omega)
  refine ⟨⟨fun h' => absurd h' hst, ?_, fun h' => absurd hq (h.ran (hr h')).2⟩, ?_,
    fun h' => absurd hq h'⟩
  · rw [if_neg hst, hstart]
    omega
  · rw [UInt32.le_iff_toNat_le]
    omega

/-- A process gets a processor and the stamp of the clock. -/
theorem Proc.OnClock.dispatch {ticks : UInt32} (h : q.OnClock n r) (hn : ticks.toNat = n)
    (hq : q.state ≠ .running) (hst : x.state = .running) (hstart : x.startTicks = q.startTicks)
    (htotal : x.cpuTicksTotal = q.cpuTicksTotal) (hin : x.cpuTicksIn = ticks) :
    x.OnClock n true where
  stamp _ := hin ▸ hn.le
  used := by
    have hu := h.used
    rw [if_neg hq] at hu
    rwa [if_pos hst, hstart, htotal, hin, hn, Nat.sub_self]
  ran := nofun

/-- What a step does to the times of a process that is past `allocproc`. -/
theorem Sys.Change.onClock {p : Slot} (hI : s.Inv) (h : s.Change a s' p x)
    (hn : s.t.ticks.toNat = n) (hq : (s.t.proc p).OnClock n r) (hnone : ∀ q, s.cont q ≠ .alloc p)
    (hno : ∀ q, s'.cont q ≠ .alloc p) (hx : x.state ≠ .unused) (hr : k = false → r = false)
    (hrun : x.state = .running → k = true) :
    x.OnClock n k ∧ (s.t.proc p).cpuTicksTotal ≤ x.cpuTicksTotal ∧
      ((s.t.proc p).state ≠ .running → x.cpuTicksTotal = (s.t.proc p).cpuTicksTotal) := by
  cases h with
  | ranked hx' =>
    obtain ⟨_, _, rfl, -⟩ := hx'
    exact ⟨hq.keep Iff.rfl rfl rfl rfl hr, UInt32.le_refl _, fun _ => rfl⟩
  | woken hst hx' =>
    subst hx'
    refine ⟨hq.keep ?_ rfl rfl rfl hr, UInt32.le_refl _, fun _ => rfl⟩
    rcases hst with rfl | ⟨hst, rfl⟩
    · exact Iff.rfl
    · simp [hst]
  | killed _ _ hx' =>
    subst hx'
    refine ⟨hq.keep ?_ rfl rfl rfl hr, UInt32.le_refl _, fun _ => rfl⟩
    unfold Proc.marked
    split
    · next hst => simp [hst]
    · exact Iff.rfl
  | copied _ _ hx' =>
    subst hx'
    exact ⟨hq.keep Iff.rfl rfl rfl rfl hr, UInt32.le_refl _, fun _ => rfl⟩
  | ready _ hst hx' =>
    subst hx'
    exact ⟨hq.keep (by simp [hst]) rfl rfl rfl hr, UInt32.le_refl _, fun _ => rfl⟩
  | exited _ hc hx' =>
    subst hx'
    exact hq.charge hn (hI.running _ _ _ hc) nofun rfl rfl hr
  | charged _ hc hst hx' =>
    obtain ⟨_, _, e⟩ := (s.t.proc p).charged_eq s.t.ticks _ _
    rw [e] at hx'
    subst hx'
    refine hq.charge hn (hI.running _ _ _ hc) ?_ rfl rfl hr
    rcases hst with rfl | ⟨rfl, -⟩ <;> exact nofun
  | dispatched _ hst hr' hx' =>
    obtain ⟨_, _, rfl, -⟩ := hr'
    subst hx'
    rw [hrun rfl]
    exact ⟨hq.dispatch hn (hst ▸ nofun) rfl rfl rfl rfl, UInt32.le_refl _, fun _ => rfl⟩
  | taken _ hp _ _ => exact absurd hp (hno _)
  | made _ _ hp _ _ => exact absurd hp (hnone _)
  | given _ _ _ hx' | reaped _ _ _ _ _ _ hx' => exact absurd (hx' ▸ rfl) hx

/-- As long as the clock has not come around, it counts the ticks, and every process past
`allocproc` is on the clock. -/
theorem Sys.Timed.onClock (h : s.Timed n ran) (hn : n < 2 ^ 32) : s.t.ticks.toNat = n ∧
    ∀ p, (s.t.proc p).state ≠ .unused → (∀ q, s.cont q ≠ .alloc p) →
      (s.t.proc p).OnClock n (ran p) := by
  induction h with
  | init ht =>
    cases userinit_eq.symm.trans ht
    refine ⟨rfl, fun p hp _ => ?_⟩
    change (booted.proc p).state ≠ .unused at hp
    change (booted.proc p).OnClock 0 false
    rw [booted_proc] at hp ⊢
    split at hp
    · next he =>
      rw [if_pos he]
      exact ⟨nofun, le_rfl, fun _ => ⟨rfl, nofun⟩⟩
    · exact absurd rfl hp
  | @step n ran s s' a ht hs ih =>
    have hI := ht.reachable.inv
    have hn' : n < 2 ^ 32 := by split at hn <;> omega
    obtain ⟨hticks, hold⟩ := ih hn'
    refine ⟨?_, fun p hp hno => ?_⟩
    · rw [(hI.trans hs).ticks]
      split
      · next ha =>
        rw [if_pos ha] at hn
        rw [UInt32.toNat_add, UInt32.toNat_one, hticks]
        exact Nat.mod_eq_of_lt hn
      · exact hticks
    · have hstep : (s'.t.proc p).OnClock n (s'.ranBy ran p) := by
        rcases hI.past_alloc hs hp hno with ⟨hemb, e⟩ | ⟨hu, hnone⟩
        · have hst : (s'.t.proc p).state ≠ .running := by
            rw [e]
            exact hemb ▸ nofun
          refine ⟨fun h => absurd h hst, ?_, fun _ => ⟨by rw [e], hst⟩⟩
          rw [if_neg hst, e]
          exact hticks.le
        · refine ((hI.change hs p).onClock hI hticks (hold p hu hnone) hnone hno hp ?_ ?_).1
          · simp [Sys.ranBy, hp]
          · intro hr
            simp [Sys.ranBy, hr]
      split
      · exact hstep.tick
      · exact hstep

theorem Proc.Live.cont_ne {p : Slot} (hI : s.Inv) (h : (s.t.proc p).Live) (q : Slot) :
    s.cont q ≠ .alloc p :=
  fun hq => h.2 (hI.embryo q p (by rw [hq]; rfl))

/-- The accounting of processor time, in every run of less than `2^32` ticks: what a process has
used, with its current slice if it runs, is at most its age; a step never lowers it; and when a
process gets a processor for the first time since its slot was free, it has used nothing. -/
theorem cpu_time_accounted (h : s.Timed n ran) (hn : n < 2 ^ 32) :
    (∀ p, (s.t.proc p).Live →
      (s.t.proc p).cpuTicksTotal.toNat + (if (s.t.proc p).state = .running then
        (s.t.ticks - (s.t.proc p).cpuTicksIn).toNat else 0) ≤
          (s.t.ticks - (s.t.proc p).startTicks).toNat) ∧
    ∀ a s', s.step a = .ok s' → ∀ p,
      ((s.t.proc p).Live → (s'.t.proc p).Live →
        (s.t.proc p).cpuTicksTotal ≤ (s'.t.proc p).cpuTicksTotal) ∧
      (ran p = false → (s'.t.proc p).state = .running → (s'.t.proc p).cpuTicksTotal = 0) := by
  have hI := h.reachable.inv
  obtain ⟨hticks, hclock⟩ := h.onClock hn
  have hsub : ∀ x : UInt32, x.toNat ≤ n → (s.t.ticks - x).toNat = n - x.toNat := fun x hx => by
    rw [UInt32.toNat_sub_of_le _ _ (by rw [UInt32.le_iff_toNat_le]; omega), hticks]
  refine ⟨fun p hp => ?_, fun a s' hs p => ?_⟩
  · have hc := hclock p hp.1 (hp.cont_ne hI)
    have hu := hc.used
    rw [hsub (s.t.proc p).startTicks (by omega)]
    split
    · next hr =>
      rw [if_pos hr] at hu
      rw [hsub _ (hc.stamp hr)]
      omega
    · omega
  · have hI' := (h.reachable.step hs).inv
    have hstep := fun hu hnone hp' => ((hI.change hs p).onClock (k := true) hI hticks
      (hclock p hu hnone) hnone (Proc.Live.cont_ne hI' hp') hp'.1 nofun fun _ => rfl).2
    refine ⟨fun hp hp' => (hstep hp.1 (hp.cont_ne hI) hp').1, fun hran hrun => ?_⟩
    have hlive : (s'.t.proc p).Live := by
      rw [Proc.Live, hrun]
      exact ⟨nofun, nofun⟩
    rcases hI.past_alloc hs hlive.1 (hlive.cont_ne hI') with ⟨-, e⟩ | ⟨hu, hnone⟩
    · rw [e]
    · obtain ⟨hzero, hne⟩ := (hclock p hu hnone).ran hran
      exact ((hstep hu hnone hlive).2 hne).trans hzero

/-- `initproc` is dispatched on the second processor, and runs for three ticks. -/
theorem cpu_time_accounted_threeTicks :
    ∃ (ran : Slot → Bool) (s : Sys), s.Timed 3 ran ∧ (s.t.proc initSlot).state = .running ∧
      (s.t.proc initSlot).cpuTicksTotal.toNat +
        (s.t.ticks - (s.t.proc initSlot).cpuTicksIn).toNat ≤
          (s.t.ticks - (s.t.proc initSlot).startTicks).toNat := by
  have hrun : ((Sys.init booted).run (sliceRun 3)).toOption.any (fun s =>
      (s.t.proc initSlot).state = .running) = true := by
    decide +kernel
  obtain ⟨s, hs, hf⟩ := exists_ok hrun
  have hst : (s.t.proc initSlot).state = .running := of_decide_eq_true hf
  obtain ⟨ran, ht⟩ := (Sys.Timed.init userinit_eq).run hs
  have hlive : (s.t.proc initSlot).Live := by
    rw [Proc.Live, hst]
    exact ⟨nofun, nofun⟩
  have h := (cpu_time_accounted ht (by decide)).1 initSlot hlive
  rw [if_pos hst] at h
  exact ⟨ran, s, ht, hst, h⟩

end

end TronBoss
