import TronBoss.Proc.Steps
import Mathlib.Tactic.FinCases

/-!
# The order of dispatch

A scheduler that scans the ready lists from `ready[0]` on finds the lists before its index empty, as
long as nothing moves under its feet. Only the scheduler that holds `ptable.lock` can move anything:
the promotion, which it may have to make at any index of its scan because the clock goes on, puts
`ready[i]` into `ready[i - 1]`, behind the scan. `Sys.Scan` is the invariant of the scan, and
`PromotesMid` the turn that breaks it.
-/

namespace TronBoss

open Lib

/-- What a scan of the ready lists has seen. -/
structure Sys.Scan (s : Sys) : Prop where
  lock : ∀ c i, s.cpu c = .loop i → s.lock = some c
  empty : ∀ c i, s.cpu c = .loop i → ∀ j < i, s.t.links.head (.ready j) = none

/-- The next turn of the scheduler on `c` promotes at an index past `0` whose list is not empty. -/
def PromotesMid (s : Sys) (c : Fin NCPU) : Prop :=
  ∃ i, s.cpu c = .loop i ∧ 0 < i ∧ s.t.promoteAtTime = s.t.ticks ∧
    s.t.links.head (.ready i) ≠ none

/-- The process is at the head of the list of its priority, and the lists before it are empty. -/
def Strict (t : PTable) (p : Slot) : Prop :=
  (∃ i : Fin (MAX + 1), i.val = (t.proc p).priority.toNat ∧ t.links.head (.ready i) = some p) ∧
  ∀ j : Fin (MAX + 1), j.val < (t.proc p).priority.toNat → t.links.head (.ready j) = none

instance (t : PTable) (p : Slot) : Decidable (Strict t p) := inferInstanceAs (Decidable (_ ∧ _))

/-- A step that is no promotion in the middle of a scan. -/
def NoMid (s : Sys) (a : Act) : Prop := ∀ c, a = .turn c → ¬ PromotesMid s c

section
variable {s s' : Sys} {c : Fin NCPU} {i j : Fin (MAX + 1)} {t : PTable} {L : Lists}

/-! ## The lists after a promotion -/

/-- Every ready list gets the processes of the one below it, and `ready[0]` keeps its own. -/
theorem promoted_ready (L : Lists) (j : Fin (MAX + 1)) : L.promoted (.ready j) =
    (if j = 0 then L (.ready 0) else []) ++
      if h : j.val + 1 < MAX + 1 then L (.ready ⟨j.val + 1, h⟩) else [] := by
  fin_cases j
  · rfl
  all_goals exact (List.nil_append _).symm

theorem ListInv.head_eq_none {proc : Slot → Proc} {k : Links} {l : ListId}
    (hL : ListInv proc k L) : k.head l = none ↔ L l = [] := by
  rw [(hL.chain l).head_eq, List.head?_eq_none_iff]

/-- Which ready lists are empty after the look at the deadline. -/
theorem promotion_heads (h : t.Inv) :
    ∃ t', promotion t = .ok t' ∧ t'.Inv ∧ ∀ j, t'.links.head (.ready j) = none ↔
      if t.promoteAtTime = t.ticks then
        (j = 0 → t.links.head (.ready 0) = none) ∧
          ∀ h : j.val + 1 < MAX + 1, t.links.head (.ready ⟨j.val + 1, h⟩) = none
      else t.links.head (.ready j) = none := by
  obtain ⟨L, hL⟩ := h
  rcases eq_or_ne t.promoteAtTime t.ticks with hdue | hdue
  · obtain ⟨t', heq, hL', -⟩ := promotion_due hL hdue
    refine ⟨t', heq, ⟨_, hL'⟩, fun j => ?_⟩
    rw [if_pos hdue, hL'.head_eq_none, promoted_ready, List.append_eq_nil_iff]
    simp only [hL.head_eq_none]
    refine and_congr ?_ ?_
    · split <;> simp_all
    · split <;> simp_all
  · exact ⟨t, promotion_early hdue, ⟨L, hL⟩, fun j => by rw [if_neg hdue]⟩

/-- The lists before the index stay empty, unless the promotion fills them from the index on. -/
theorem empty_before_iff {t' : PTable} (hj : ∀ j < i, t.links.head (.ready j) = none)
    (ht' : ∀ j, t'.links.head (.ready j) = none ↔
      if t.promoteAtTime = t.ticks then
        (j = 0 → t.links.head (.ready 0) = none) ∧
          ∀ h : j.val + 1 < MAX + 1, t.links.head (.ready ⟨j.val + 1, h⟩) = none
      else t.links.head (.ready j) = none) :
    (∀ j < i, t'.links.head (.ready j) = none) ↔
      ¬ (0 < i ∧ t.promoteAtTime = t.ticks ∧ t.links.head (.ready i) ≠ none) := by
  constructor
  · rintro hall ⟨hi, hdue, hne⟩
    -- the list at the index is in the one before it now
    have hlt : i.val - 1 < MAX + 1 := lt_of_le_of_lt (Nat.sub_le ..) i.isLt
    have hprev := (ht' ⟨i.val - 1, hlt⟩).1 (hall ⟨i.val - 1, hlt⟩ (by
      rw [Fin.lt_def]
      dsimp only
      omega))
    rw [if_pos hdue] at hprev
    have hsucc : (⟨i.val - 1 + 1, by omega⟩ : Fin (MAX + 1)) = i := Fin.ext (by dsimp only; omega)
    refine hne ?_
    have := hprev.2 (by dsimp only; omega)
    rwa [hsucc] at this
  · intro hno j hlt
    rw [ht']
    split
    · next hdue =>
      have hi : t.links.head (.ready i) = none := by
        refine Classical.not_not.1 fun hne => hno ⟨lt_of_le_of_lt (Fin.zero_le j) hlt, hdue, hne⟩
      refine ⟨fun h0 => hj 0 (h0 ▸ hlt), fun h => ?_⟩
      rcases lt_or_eq_of_le (show (⟨j.val + 1, h⟩ : Fin (MAX + 1)) ≤ i from hlt) with hlt' | heq
      · exact hj _ hlt'
      · rw [heq]
        exact hi
    · exact hj j hlt

/-! ## The scan -/

/-- A state in which at most the scheduler of one processor scans, and stands at the start. -/
theorem Sys.Scan.of_start (h : ∀ c i, s.cpu c = .loop i → s.lock = some c ∧ i = 0) : s.Scan :=
  ⟨fun c i hc => (h c i hc).1, fun c i hc j hj => by
    rw [(h c i hc).2] at hj
    exact absurd hj (Nat.not_lt_zero _)⟩

/-- A step that leaves the processors, the lock and the links alone. -/
theorem Sys.Scan.congr (h : s.Scan) (hcpu : s'.cpu = s.cpu) (hlock : s'.lock = s.lock)
    (hlinks : s'.t.links = s.t.links) : s'.Scan := by
  refine ⟨fun c i hc => ?_, fun c i hc => ?_⟩
  · rw [hlock]
    exact h.lock c i (hcpu ▸ hc)
  · rw [hlinks]
    exact h.empty c i (hcpu ▸ hc)

/-- No scheduler scans while the lock is free. -/
theorem Sys.Scan.of_free (h : s.Scan) (hl : s.lock = none) (c : Fin NCPU) (i : Fin (MAX + 1)) :
    s.cpu c ≠ .loop i := fun hc => by
  have := h.lock c i hc
  rw [hl] at this
  cases this

/-- No scheduler scans while a process is in a turn of `wait`. -/
theorem Sys.Scan.of_mayWait {p : Slot} {b : Bool} (h : s.Scan) (hc : s.cpu c = .run p b)
    (hw : s.MayWait c p) (c' : Fin NCPU) (i : Fin (MAX + 1)) : s.cpu c' ≠ .loop i := by
  rcases hw with ⟨hl, -⟩ | ⟨hl, -⟩
  · exact h.of_free hl c' i
  · intro hc'
    have hlock := h.lock c' i hc'
    rw [hl, Option.some_inj] at hlock
    rw [hlock, hc'] at hc
    cases hc

/-- A processor goes from a process to its scheduler. -/
theorem Sys.Scan.swtch {b : Bool} (h : ∀ c' i, s.cpu c' ≠ .loop i) : (s.swtch c b).Scan := by
  refine .of_start fun c' i hc' => ?_
  unfold Sys.swtch at hc' ⊢
  rcases eq_or_ne c' c with rfl | hne
  · cases b with
    | true => simp [setCpu] at hc'
    | false => simpa [setCpu] using hc'.symm
  · cases b <;> simp [setCpu, hne, h] at hc'

/-- The lists before the index of a scan stay empty, but for a promotion past index 0. -/
theorem Sys.Scan.step_turn (h : s.Scan) (hI : s.Inv) (hmid : ¬ PromotesMid s c)
    (hs : s.step (.turn c) = .ok s') : s'.Scan := by
  unfold Sys.step at hs
  dsimp only at hs
  cases hc : s.cpu c with
  | run p b | idle =>
    rw [hc] at hs
    cases hs
  | loop i =>
    rw [hc] at hs
    obtain ⟨hl, hs⟩ := require_bind_eq_ok hs
    -- no other processor scans
    have hother : ∀ c' i', c' ≠ c → s.cpu c' ≠ .loop i' := by
      intro c' i' hne hc'
      have hlock := h.lock c' i' hc'
      rw [hl, Option.some_inj] at hlock
      exact hne hlock.symm
    obtain ⟨t1, h1, ht1, hheads⟩ := promotion_heads hI.table
    rw [h1, ok_bind] at hs
    have hbefore := (empty_before_iff (h.empty c i hc) hheads).2 fun hm =>
      hmid ⟨i, hc, hm⟩
    rcases dispatch_spec i ht1 with ⟨hnone, heq⟩ | ⟨p, k, L', -, -, -, -, heq⟩
    · rw [heq, ok_bind] at hs
      dsimp only at hs
      split at hs
      · cases hs
        refine ⟨fun c' i' hc' => ?_, fun c' i' hc' j hj => ?_⟩
        · rcases eq_or_ne c' c with rfl | hne
          · exact hl
          · exact absurd (by simpa [setCpu, hne] using hc') (hother c' i' hne)
        · rcases eq_or_ne c' c with rfl | hne
          · simp only [setCpu, Function.update_self, CpuState.loop.injEq] at hc'
            rw [← hc'] at hj
            rcases Nat.lt_succ_iff_lt_or_eq.1 hj with hlt | heq
            · exact hbefore j hlt
            · rw [Fin.ext heq]
              exact hnone
          · exact absurd (by simpa [setCpu, hne] using hc') (hother c' i' hne)
      · cases hs
        refine .of_start fun c' i' hc' => ?_
        rcases eq_or_ne c' c with rfl | hne
        · simp [setCpu] at hc'
        · exact absurd (by simpa [setCpu, hne] using hc') (hother c' i' hne)
    · rw [heq, ok_bind] at hs
      cases hs
      refine .of_start fun c' i' hc' => ?_
      rw [resume_cpu] at hc'
      rcases eq_or_ne c' c with rfl | hne
      · simp at hc'
      · exact absurd (by simpa [hne] using hc') (hother c' i' hne)

/-- Every step but a promotion in the middle of a scan keeps what the scan has seen. -/
theorem Sys.Scan.step {a : Act} (h : s.Scan) (hI : s.Inv)
    (hmid : NoMid s a) (hs : s.step a = .ok s') : s'.Scan := by
  cases hI.trans hs with
  | advance hc hl hr hi | pass hc hl hr | dispatch k hc hl hr hp =>
    exact h.step_turn hI (hmid _ rfl) hs
  | exit k hc hl ho hi | yield k hc hl | sleep k hc hl ho => exact .swtch (h.of_free hl)
  | waitSleep k hc hw hno => exact .swtch (h.of_mayWait hc hw)
  | reap k hc hw hz hpar heq | waitFail hc hw heq =>
    exact .of_start fun c' i hc' => absurd hc' (h.of_mayWait hc hw c' i)
  | @enter c hc hl =>
    refine .of_start fun c' i hc' => ?_
    rcases eq_or_ne c' c with rfl | hne
    · simpa [setCpu] using hc'.symm
    · exact absurd (by simpa [setCpu, hne] using hc') (h.of_free hl c' i)
  | forkFull hc hl ho => exact h
  | forkStack hc hp | forkImage hc hp | fault hc ho | tick => exact h.congr rfl rfl rfl
  | fork k hc hl ho hnp | forkFail k hc hl hp | forkDone k hc hl hp | wakeup k hl
  | kill k hc hl ho hf | setpriority hc hl ho hr =>
    exact .of_start fun c' i hc' => absurd hc' (h.of_free hl c' i)

/-- Let a run start in any state in which the process lists are consistent and no scheduler scans,
and make no promotion in the middle of a scan. If its next turn dispatches a process, then the
process is at the head of the list of its priority and all lists before it are empty exactly if that
turn is no promotion in the middle of a scan either. -/
theorem dispatch_strict_iff {s₀ : Sys} {p : Slot} {t₁ t₂ : PTable} (h₀ : s₀.Inv)
    (hidle : ∀ c i, s₀.cpu c ≠ .loop i) (hrun : Sys.Run NoMid s₀ s) (hc : s.cpu c = .loop i)
    (hp : promotion s.t = .ok t₁) (hd : dispatch i t₁ = .ok (some p, t₂)) :
    Strict t₁ p ↔ ¬ PromotesMid s c := by
  have hscan : s.Inv ∧ s.Scan := by
    clear hc hp
    induction hrun with
    | refl => exact ⟨h₀, .of_start fun c i hc => absurd hc (hidle c i)⟩
    | step _ hmid hs ih => exact ⟨ih.1.of_step hs, ih.2.step ih.1 hmid hs⟩
  obtain ⟨hI, hscan⟩ := hscan
  obtain ⟨t', h₁, ht₁, hheads⟩ := promotion_heads hI.table
  rw [hp] at h₁
  cases h₁
  rcases dispatch_spec i ht₁ with ⟨-, heq⟩ | ⟨p', k, L', hhead, -, hprio, -, heq⟩
  · rw [hd] at heq
    cases heq
  · rw [hd] at heq
    cases heq
    have hmid : PromotesMid s c ↔
        0 < i ∧ s.t.promoteAtTime = s.t.ticks ∧ s.t.links.head (.ready i) ≠ none := by
      refine ⟨?_, fun h => ⟨i, hc, h⟩⟩
      rintro ⟨i', hi', h⟩
      rw [hc] at hi'
      cases hi'
      exact h
    rw [hmid, ← empty_before_iff (hscan.empty c i hc) hheads, Strict, hprio]
    exact and_iff_right ⟨i, rfl, hhead⟩

/-- The dispatch of the first process. -/
theorem dispatch_strict_iff_first :
    ∃ s t₁ t₂, (Sys.init booted).step (.enter cpu0) = .ok s ∧ promotion s.t = .ok t₁ ∧
      dispatch 0 t₁ = .ok (some initSlot, t₂) ∧ Strict t₁ initSlot := by
  have hrun : ((Sys.init booted).step (.enter cpu0)).toOption.any (fun s =>
      decide (s.cpu cpu0 = .loop 0) && (promotion s.t).toOption.any fun t₁ =>
        (dispatch 0 t₁).toOption.any fun r => decide (r.1 = some initSlot)) = true := by
    decide +kernel
  obtain ⟨s, hs, hf⟩ := exists_ok hrun
  rw [Bool.and_eq_true, decide_eq_true_eq] at hf
  obtain ⟨t₁, ht₁, hf₁⟩ := exists_ok hf.2
  obtain ⟨⟨r, t₂⟩, hr, hf₂⟩ := exists_ok hf₁
  obtain rfl : r = some initSlot := of_decide_eq_true hf₂
  have hI : (Sys.init booted).Inv := (Sys.Reachable.init userinit_eq).inv
  refine ⟨s, t₁, t₂, hs, ht₁, hr,
    (dispatch_strict_iff hI (fun _ _ => nofun) (.step .refl nofun hs) hf.1 ht₁ hr).2 ?_⟩
  rintro ⟨i, hi, hpos, -⟩
  rw [hf.1] at hi
  cases hi
  exact absurd hpos (lt_irrefl _)

/-- Two children with priorities 2 and 3, and a scan that has passed `ready[1]` when the promotion is
due. -/
def midScanRun : List Act :=
  [Act.enter cpu0, .turn cpu0] ++ forkActs cpu0 ++ forkActs cpu0 ++
  [Act.setpriority cpu0 2 2, .setpriority cpu0 3 3] ++ List.replicate 1099 Act.tick ++
  [Act.sleep cpu0 (.addr 0), .turn cpu0, .turn cpu0, .tick]

/-- Then the scan dispatches the child with the lower priority, while the other one is on
`ready[1]`. -/
theorem dispatch_not_strict_midScanRun :
    ∃ s t₁ t₂ p, (Sys.init booted).run midScanRun = .ok s ∧ s.cpu cpu0 = .loop 2 ∧
      promotion s.t = .ok t₁ ∧ dispatch 2 t₁ = .ok (some p, t₂) ∧ ¬ Strict t₁ p := by
  have hrun : ((Sys.init booted).run midScanRun).toOption.any (fun s =>
      decide (s.cpu cpu0 = .loop 2) && (promotion s.t).toOption.any fun t₁ =>
        (dispatch 2 t₁).toOption.any fun r => r.1.any fun p => decide ¬ Strict t₁ p) = true := by
    decide +kernel
  obtain ⟨s, hs, hf⟩ := exists_ok hrun
  rw [Bool.and_eq_true, decide_eq_true_eq] at hf
  obtain ⟨t₁, ht₁, hf₁⟩ := exists_ok hf.2
  obtain ⟨⟨r, t₂⟩, hr, hf₂⟩ := exists_ok hf₁
  obtain ⟨p, rfl, hp⟩ := (Option.any_eq_true ..).1 hf₂
  exact ⟨s, t₁, t₂, p, hs, hf.1, ht₁, hr, of_decide_eq_true hp⟩

end

end TronBoss
