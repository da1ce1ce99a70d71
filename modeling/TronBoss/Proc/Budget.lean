import TronBoss.Proc.Frame
import TronBoss.Proc.Promotion

/-!
# The budget of a process

`yield` and `sleep` subtract the ticks since the dispatch from the budget and demote the process
when nothing is left. `budget` is unsigned, so the test `budget <= 0` sees the budget only when it
is used up exactly: a time slice that is longer than what was left wraps the budget around and
demotes nobody (`charge_accounted_iff`). A time slice is a run in which its processor makes no turn
of the scheduler; the ticks in the run are what `ticks - cpu_ticks_in` counts, modulo `2^32`
(`slice_elapsed`).
-/

namespace TronBoss

open Lib Function

/-- The accounting that the budget is for: `n` ticks of the process `q`, which is then `q'`. A
process that has used up its budget is demoted and gets a new one. -/
def Accounted (n : Nat) (q q' : Proc) : Prop :=
  if q.budget.toNat ≤ n then
    q'.priority.toNat = min (q.priority.toNat + 1) MAX ∧ q'.budget = DEFAULT_BUDGET
  else q'.priority = q.priority ∧ q'.budget.toNat + n = q.budget.toNat

/-- The time since the dispatch is at most what is left of the budget. -/
def InBudget (s : Sys) (a : Act) : Prop :=
  ∀ c p b, s.cpu c = .run p b → a.charges c →
    s.t.ticks - (s.t.proc p).cpuTicksIn ≤ (s.t.proc p).budget

/-- Every process past `allocproc` has some budget left, and no more than a whole one. -/
def Sys.Budgeted (s : Sys) : Prop :=
  ∀ p, (s.t.proc p).state ≠ .unused → (∀ q, s.cont q ≠ .alloc p) →
    1 ≤ (s.t.proc p).budget ∧ (s.t.proc p).budget ≤ DEFAULT_BUDGET

section
variable {s s' s₀ s₁ : Sys} {a : Act} {c : Fin NCPU} {p : Slot} {b : Bool} {q : Proc}

/-- The charge, when the budget is used up exactly, and when it is not. -/
theorem chargeBudget_cases (ticks : UInt32) (hb : q.priority.toNat ≤ MAX) :
    if q.budget = ticks - q.cpuTicksIn then
      (chargeBudget ticks q).budget = DEFAULT_BUDGET ∧
        (chargeBudget ticks q).priority.toNat = min (q.priority.toNat + 1) MAX
    else (chargeBudget ticks q).budget = q.budget - (ticks - q.cpuTicksIn) ∧
      (chargeBudget ticks q).priority = q.priority := by
  have hzero : q.budget - (ticks - q.cpuTicksIn) ≤ 0 ↔ q.budget = ticks - q.cpuTicksIn := by
    rw [UInt32.le_iff_toNat_le, UInt32.toNat_zero, Nat.le_zero, ← UInt32.toNat_zero,
      UInt32.toNat_inj, UInt32.sub_eq_iff_eq_add, UInt32.zero_add]
  have hM : MAX = 5 := rfl
  unfold chargeBudget
  simp only [hzero]
  split
  · split
    · next hne =>
      have hlt : q.priority.toNat < MAX :=
        lt_of_le_of_ne hb fun e => hne (UInt32.toNat_inj.1 e)
      refine ⟨rfl, ?_⟩
      rw [UInt32.toNat_add, UInt32.toNat_one]
      omega
    · next he =>
      have hmax : q.priority.toNat = MAX := congrArg UInt32.toNat (not_not.1 he)
      exact ⟨rfl, by dsimp only; omega⟩
  · exact ⟨rfl, rfl⟩

/-- The charge accounts for `n` ticks exactly if they are within the budget, or happen to be equal
to it modulo `2^32`, or wrap the budget of a process on the lowest level to the whole one. -/
theorem charge_accounted_iff {q' : Proc} {ticks : UInt32} {n : Nat} (hb : q.priority.toNat ≤ MAX)
    (hn : ticks - q.cpuTicksIn = UInt32.ofNat n)
    (hbudget : q'.budget = (chargeBudget ticks q).budget)
    (hpriority : q'.priority = (chargeBudget ticks q).priority) :
    Accounted n q q' ↔ n ≤ q.budget.toNat ∨ q.budget = UInt32.ofNat n ∨
      q.priority.toNat = MAX ∧ q.budget - UInt32.ofNat n = DEFAULT_BUDGET := by
  have hc := chargeBudget_cases ticks hb
  rw [hn, ← hbudget, ← hpriority] at hc
  unfold Accounted
  split at hc
  · next he =>
    have hle : q.budget.toNat ≤ n := by
      rw [he, UInt32.toNat_ofNat']
      exact Nat.mod_le ..
    rw [if_pos hle]
    exact iff_of_true ⟨hc.2, hc.1⟩ (.inr (.inl he))
  · next hne =>
    obtain ⟨h1, h2⟩ := hc
    split
    · next hle =>
      have hn' : ¬ n ≤ q.budget.toNat := fun h =>
        hne (by rw [← le_antisymm hle h, UInt32.ofNat_toNat])
      rw [h1, h2]
      simp only [hn', hne, false_or]
      exact and_congr_left fun _ => ⟨fun h => by omega, fun h => by omega⟩
    · next hlt =>
      refine iff_of_true ⟨h2, ?_⟩ (.inl (Nat.le_of_not_le hlt))
      have hsize : n < 2 ^ 32 := (Nat.lt_of_not_le hlt).trans q.budget.toNat_lt
      have hnat : (UInt32.ofNat n).toNat = n := UInt32.toNat_ofNat_of_lt hsize
      rw [h1, UInt32.toNat_sub_of_le _ _ (by rw [UInt32.le_iff_toNat_le]; omega), hnat]
      omega

/-! ## Time slices -/

/-- The clock ticks at its own steps only. -/
theorem Sys.Trans.ticks (ht : s.Trans a s') :
    s'.t.ticks = if a = .tick then s.t.ticks + 1 else s.t.ticks := by
  cases ht with
  | tick => rw [if_pos rfl]
  | forkFail k _ _ hp => rcases hp with ⟨rfl, -⟩ | ⟨rfl, -⟩ <;> rfl
  | setpriority _ _ _ hr | advance _ _ hr _ | pass _ _ hr => exact hr.ticks
  | dispatch k _ _ hr _ => exact (resume_t _).1.trans hr.ticks
  | exit k _ _ _ _ | waitSleep k _ _ _ | yield k _ _ | sleep k _ _ _ =>
    rw [if_neg nofun, swtch_t, PTable.put_ticks]
  | _ => rfl

theorem Sys.swtch_cpu_ne_run (b' : Bool) : (s.swtch c b).cpu c ≠ .run p b' := by
  unfold swtch
  split <;> simp [setCpu]

/-- A processor comes to run a process by a turn of its scheduler only. -/
theorem Sys.Trans.cpu_back (ht : s.Trans a s') (ha : a ≠ .turn c)
    (hc : s'.cpu c = .run p b) : s.cpu c = .run p b := by
  rcases ne_or_eq a.cpu? (some c) with hne | heq
  · rwa [ht.cpu_eq hne] at hc
  · cases ht with
    | exit k _ _ _ _ | waitSleep k _ _ _ | yield k _ _ | sleep k _ _ _ =>
      cases heq
      exact absurd hc (swtch_cpu_ne_run _)
    | enter _ _ =>
      cases heq
      simp [setCpu] at hc
    | advance _ _ _ _ | pass _ _ _ | dispatch k _ _ _ _ =>
      cases heq
      exact absurd rfl ha
    | _ => exact hc

/-- The time of the dispatch stays while the process runs. -/
theorem Sys.Change.cpuTicksIn {x : Proc} (h : s.Change a s' p x)
    (hp : (s.t.proc p).state = .running) : x.cpuTicksIn = (s.t.proc p).cpuTicksIn := by
  cases h with
  | ranked hx =>
    obtain ⟨_, _, rfl, -⟩ := hx
    rfl
  | charged _ _ _ hx =>
    obtain ⟨_, _, e⟩ := (s.t.proc p).charged_eq s.t.ticks _ _
    rw [hx, e]
  | woken _ hx | exited _ _ hx | killed _ _ hx => exact hx ▸ rfl
  | taken _ _ hq _ | made _ _ _ hq _ | copied _ hq _ | given _ _ hq _ | ready _ hq _
  | reaped _ _ hq _ _ _ _ | dispatched _ hq _ _ => cases hp.symm.trans hq

/-- The time since the dispatch grows with the ticks while a process keeps its processor. -/
theorem run_elapsed : ∀ {as : List Act} {s : Sys}, s.Reachable → (∀ a ∈ as, a ≠ .turn c) →
    s.run as = .ok s' → s'.cpu c = .run p b → s.cpu c = .run p b ∧
      s'.t.ticks - (s'.t.proc p).cpuTicksIn =
        s.t.ticks - (s.t.proc p).cpuTicksIn + UInt32.ofNat (as.count .tick)
  | [], s, _, _, hr, hc => by
    cases hr
    exact ⟨hc, by simp⟩
  | a :: as, s, h, hno, hr, hc => by
    rw [Sys.run, List.foldlM_cons] at hr
    obtain ⟨s₁, h1, h2⟩ := bind_eq_ok.1 hr
    obtain ⟨hc1, he⟩ := run_elapsed (h.step h1) (fun a ha => hno a (List.mem_cons_of_mem _ ha)) h2 hc
    have ht := h.inv.trans h1
    have hcs := ht.cpu_back (hno a List.mem_cons_self) hc1
    refine ⟨hcs, ?_⟩
    rw [he, (h.inv.change h1 p).cpuTicksIn (h.inv.running c p b hcs), ht.ticks]
    split
    · next ha =>
      rw [ha, List.count_cons_self, UInt32.ofNat_add]
      grind
    · next ha => rw [List.count_cons_of_ne ha]

/-- A dispatch notes the time. -/
theorem Sys.Inv.dispatched (hI : s.Inv) (hs : s.step (.turn c) = .ok s')
    (hc : s'.cpu c = .run p b) : s'.t.ticks - (s'.t.proc p).cpuTicksIn = 0 := by
  cases hI.trans hs with
  | advance _ _ _ _ | pass _ _ _ => simp [Sys.setCpu] at hc
  | forkFail k _ _ hp => rcases hp with ⟨h, -⟩ | ⟨h, -⟩ <;> cases h
  | @dispatch c i p' t k _ _ hr _ =>
    rw [resume_cpu, update_self] at hc
    cases hc
    rw [(resume_t _).1]
    rcases resume_eq (s := { s with t := t.put (update t.proc p
      { t.proc p with state := .running, cpuTicksIn := t.ticks }) k }) (c := c) (p := p)
      (i = Fin.last MAX) with ⟨ht, -⟩ | ⟨ht, -⟩ <;> rw [ht] <;> simp

/-- A process that gives up its processor by `yield`, `sleep` or `wait` is charged. -/
theorem Sys.Inv.charged (hI : s.Inv) (hs : s.step a = .ok s') (ha : a.charges c)
    (hc : s.cpu c = .run p b) (hleft : s'.cpu c ≠ .run p b) :
    (s'.t.proc p).budget = (chargeBudget s.t.ticks (s.t.proc p)).budget ∧
      (s'.t.proc p).priority = (chargeBudget s.t.ticks (s.t.proc p)).priority := by
  cases hI.trans hs with
  | @yield c' p' b' k hc' _ =>
    obtain rfl : c' = c := of_decide_eq_true ha
    cases hc'.symm.trans hc
    rw [swtch_t, PTable.put_proc, update_self, Proc.yielded_eq_charged]
    exact ⟨rfl, rfl⟩
  | @sleep c' p' b' chan k hc' _ _ | @waitSleep c' p' b' k hc' _ _ =>
    obtain rfl : c' = c := of_decide_eq_true ha
    cases hc'.symm.trans hc
    rw [swtch_t, PTable.put_proc, update_self, Proc.slept_eq_charged]
    exact ⟨rfl, rfl⟩
  | reap k _ _ _ _ _ | waitFail _ _ _ => exact absurd hc hleft
  | forkFail k _ _ hp => rcases hp with ⟨rfl, -⟩ | ⟨rfl, -⟩ <;> cases ha
  | _ => cases ha

/-! ## The budgets over a whole run -/

/-- A charge within the budget leaves some of it, or a whole one. -/
theorem charge_bounds {ticks : UInt32} (hp : q.priority.toNat ≤ MAX)
    (hle : ticks - q.cpuTicksIn ≤ q.budget) (hb : q.budget ≤ DEFAULT_BUDGET) :
    1 ≤ (chargeBudget ticks q).budget ∧ (chargeBudget ticks q).budget ≤ DEFAULT_BUDGET := by
  have hc := chargeBudget_cases ticks hp
  split at hc
  · rw [hc.1]
    decide
  · next hne =>
    have hlt : (ticks - q.cpuTicksIn).toNat ≠ q.budget.toNat := fun h =>
      hne (UInt32.toNat_inj.1 h).symm
    rw [hc.1]
    rw [UInt32.le_iff_toNat_le] at hle hb
    simp only [UInt32.le_iff_toNat_le, UInt32.toNat_one,
      UInt32.toNat_sub_of_le _ _ (UInt32.le_iff_toNat_le.2 hle)]
    omega

/-- A step within the budget keeps the budgets in range. -/
theorem Sys.Budgeted.step (h : s.Budgeted) (hI : s.Inv) (hin : InBudget s a)
    (hs : s.step a = .ok s') : s'.Budgeted := by
  intro r hr hno
  rcases hI.past_alloc hs hr hno with ⟨-, e⟩ | ⟨hu, hnone⟩
  · rw [e]
    dsimp only
    decide
  · have hold := h r hu hnone
    have hrank : ∀ {x}, (s.t.proc r).Ranked x → 1 ≤ x.budget ∧ x.budget ≤ DEFAULT_BUDGET := by
      rintro x ⟨_, y, rfl, rfl | rfl⟩
      · exact hold
      · dsimp only
        decide
    cases hI.change hs r with
    | ranked hx => exact hrank hx
    | dispatched _ _ hr hx =>
      have h := hrank hr
      exact hx ▸ h
    | charged ha hc _ hx =>
      obtain ⟨L, hL⟩ := hI.table
      exact hx ▸ charge_bounds (hL.bound r) (hin _ r _ hc ha) hold.2
    | taken _ hp _ _ => exact absurd hp (hno _)
    | made _ _ hp _ _ => exact absurd hp (hnone _)
    | copied _ _ hx | given _ _ _ hx | ready _ _ hx | woken _ hx | exited _ _ hx
    | reaped _ _ _ _ _ _ hx | killed _ _ hx => exact hx ▸ hold

theorem budgeted_of_run (h : Sys.Run InBudget (.init booted) s) : s.Budgeted := by
  induction h with
  | refl =>
    intro p hp _
    change (booted.proc p).state ≠ .unused at hp
    change 1 ≤ (booted.proc p).budget ∧ (booted.proc p).budget ≤ DEFAULT_BUDGET
    rw [booted_proc] at hp ⊢
    split at hp
    · next he =>
      rw [if_pos he]
      decide
    · exact absurd rfl hp
  | step hrun hin hs ih => exact ih.step (hrun.reachable (.init userinit_eq)).inv hin hs

/-- The budget accounting. A process that is dispatched, keeps its processor for a run `as` and then
gives it up is accounted for exactly if the ticks of the run are within its budget (or one of the
two coincidences modulo `2^32` holds). And as long as every time slice is within the budget, every
process that is past `allocproc` has between one tick and a whole budget left. -/
theorem budget_accounting {s₀ s₁ s₂ s₃ : Sys} {as : List Act} (h₀ : s₀.Reachable)
    (hturn : s₀.step (.turn c) = .ok s₁) (hrun : s₁.run as = .ok s₂)
    (hno : ∀ a ∈ as, a ≠ .turn c) (hc : s₂.cpu c = .run p b) (ha : a.charges c)
    (hs : s₂.step a = .ok s₃) (hleft : s₃.cpu c ≠ .run p b) :
    (Accounted (as.count .tick) (s₂.t.proc p) (s₃.t.proc p) ↔
      as.count .tick ≤ (s₂.t.proc p).budget.toNat ∨
      (s₂.t.proc p).budget = UInt32.ofNat (as.count .tick) ∨
      (s₂.t.proc p).priority.toNat = MAX ∧
        (s₂.t.proc p).budget - UInt32.ofNat (as.count .tick) = DEFAULT_BUDGET) ∧
    ∀ s, Sys.Run InBudget (.init booted) s → s.Budgeted := by
  refine ⟨?_, fun s h => budgeted_of_run h⟩
  have h₁ := h₀.step hturn
  have h₂ := h₁.run hrun
  obtain ⟨hc₁, helapsed⟩ := run_elapsed h₁ hno hrun hc
  rw [h₀.inv.dispatched hturn hc₁, UInt32.zero_add] at helapsed
  obtain ⟨hbudget, hpriority⟩ := h₂.inv.charged hs ha hc hleft
  obtain ⟨L, hL⟩ := h₂.inv.table
  exact charge_accounted_iff (hL.bound p) helapsed hbudget hpriority

/-- `initproc` is dispatched on the second processor, and gives it up after three ticks. -/
theorem budget_accounting_threeTicks :
    ∃ s₀ s₁ s₂ s₃, (Sys.init booted).run [.enter cpu1] = .ok s₀ ∧
      s₀.step (.turn cpu1) = .ok s₁ ∧ s₁.run (List.replicate 3 .tick) = .ok s₂ ∧
      s₂.step (.yield cpu1) = .ok s₃ ∧
      Accounted 3 (s₂.t.proc initSlot) (s₃.t.proc initSlot) ∧ (Sys.init booted).Budgeted := by
  have hrun : ((Sys.init booted).run [.enter cpu1]).toOption.any (fun s₀ =>
      (s₀.step (.turn cpu1)).toOption.any fun s₁ =>
        (s₁.run (List.replicate 3 .tick)).toOption.any fun s₂ =>
          (s₂.step (.yield cpu1)).toOption.any fun s₃ =>
            decide (s₂.cpu cpu1 = .run initSlot false ∧ s₃.cpu cpu1 ≠ .run initSlot false ∧
              (s₂.t.proc initSlot).budget = 300)) = true := by
    decide +kernel
  obtain ⟨s₀, hs₀, hf⟩ := exists_ok hrun
  obtain ⟨s₁, hs₁, hf⟩ := exists_ok hf
  obtain ⟨s₂, hs₂, hf⟩ := exists_ok hf
  obtain ⟨s₃, hs₃, hf⟩ := exists_ok hf
  obtain ⟨hc, hleft, hbudget⟩ := of_decide_eq_true hf
  obtain ⟨hiff, hall⟩ := budget_accounting ((Sys.Reachable.init userinit_eq).run hs₀) hs₁ hs₂
    (by decide) hc rfl hs₃ hleft
  exact ⟨s₀, s₁, s₂, s₃, hs₀, hs₁, hs₂, hs₃, hiff.2 (.inl (by rw [hbudget]; decide)),
    hall _ .refl⟩

/-- The run in which `initproc` keeps the second processor for a number of ticks. -/
def sliceRun (n : Nat) : List Act := [.enter cpu1, .turn cpu1] ++ List.replicate n .tick

/-- A time slice of one tick more than the budget demotes nobody and wraps the budget. -/
theorem budget_wraps_longSlice :
    ∃ s₂ s₃, (Sys.init booted).run (sliceRun 301) = .ok s₂ ∧ s₂.step (.yield cpu1) = .ok s₃ ∧
      (s₂.t.proc initSlot).budget = 300 ∧ (s₃.t.proc initSlot).priority = 0 ∧
      (s₃.t.proc initSlot).budget = 4294967295 ∧
      ¬ Accounted 301 (s₂.t.proc initSlot) (s₃.t.proc initSlot) ∧ ¬ s₃.Budgeted := by
  have hrun : ((Sys.init booted).run (sliceRun 301)).toOption.any (fun s₂ =>
      (s₂.step (.yield cpu1)).toOption.any fun s₃ =>
        decide ((s₂.t.proc initSlot).budget = 300 ∧ (s₃.t.proc initSlot).priority = 0 ∧
          (s₃.t.proc initSlot).budget = 4294967295 ∧ (s₂.t.proc initSlot).priority = 0 ∧
          (s₃.t.proc initSlot).state ≠ .unused ∧ ∀ q, s₃.cont q ≠ .alloc initSlot)) = true := by
    decide +kernel
  obtain ⟨s₂, hs₂, hf⟩ := exists_ok hrun
  obtain ⟨s₃, hs₃, hf⟩ := exists_ok hf
  obtain ⟨hb₂, hp₃, hb₃, hp₂, hu, hno⟩ := of_decide_eq_true hf
  refine ⟨s₂, s₃, hs₂, hs₃, hb₂, hp₃, hb₃, fun h => ?_, fun h => ?_⟩
  · unfold Accounted at h
    rw [hb₂, hp₂, hp₃, hb₃] at h
    exact absurd h (by decide)
  · have := (h initSlot hu hno).2
    rw [hb₃] at this
    exact absurd this (by decide)

end

end TronBoss
