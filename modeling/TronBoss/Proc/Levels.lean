import TronBoss.Proc.Dispatch

/-!
# What a promotion does to the levels

The exact effect of the two promotion routines on a table that satisfies the process-list
invariant. `promotiononotherlists` lowers the priorities of one list and moves nothing. The loop of
`promotiononreadylists` over the levels moves every process of `ready[j + 1]` to `ready[j]`; since
the loop goes up, a process that has arrived on a level is not moved again. The new priorities are
read off the lists (`ListInv.priority`), so what is left to show about the loop is that it changes
no other field and no process that is not runnable.
-/

namespace TronBoss

open Lib Function

section
variable {t t' : PTable} {L : Lists}

/-- The lists of processes that are not runnable stay as they are. -/
theorem promoted_other {l : ListId} (hl : l.state ≠ .runnable) : ∀ js : List (Fin MAX),
    js.foldl Lists.promote L l = L l := by
  intro js
  induction js generalizing L with
  | nil => rfl
  | cons j js ih =>
    have hne : ∀ i, l ≠ .ready i := fun i e => hl (by rw [e]; rfl)
    rw [List.foldl_cons, ih, Lists.promote, update_of_ne (hne _),
      update_of_ne (hne _)]

/-- A priority that is one less. -/
theorem eq_pred_of_toNat {x y : UInt32} (h : x.toNat = y.toNat + 1) : y = x - 1 := by
  have h1 : (1 : UInt32).toNat = 1 := rfl
  refine UInt32.toNat_inj.1 ?_
  rw [UInt32.toNat_sub_of_le _ _ (by rw [UInt32.le_iff_toNat_le]; omega)]
  omega

/-- The promotion of the levels: `ready[0]` is followed by `ready[1]`, every other level gets the
processes of the next one in their order, and the last level is empty; a process that moves has its
priority lowered by one, to the index of its new list, and nothing else of it changes, nor anything
of the other processes. On the sleep and running lists the priorities that are not zero go down by
one, and the list stays as it is. -/
theorem promotion_one_level (hL : ListInv t.proc t.links L) :
    (∃ t' L', promoteReady t (List.finRange MAX) = .ok t' ∧ ListInv t'.proc t'.links L' ∧
      L' (.ready 0) = L (.ready 0) ++ L (.ready 1) ∧
      (∀ j : Fin MAX, 0 < j.val → L' (.ready j.castSucc) = L (.ready j.succ)) ∧
      L' (.ready (Fin.last MAX)) = [] ∧
      (∀ l, l.state ≠ .runnable → L' l = L l) ∧
      (∀ j : Fin MAX, ∀ p ∈ L (.ready j.succ), (t'.proc p).priority.toNat = j ∧
        t'.proc p = { t.proc p with priority := (t.proc p).priority - 1 }) ∧
      ∀ p, (∀ j : Fin MAX, p ∉ L (.ready j.succ)) → t'.proc p = t.proc p) ∧
    ∀ l, l = .sleep ∨ l = .running →
      ∃ t', promotiononotherlists l t = .ok t' ∧ ListInv t'.proc t'.links L ∧
        t'.links = t.links ∧
        ∀ p, t'.proc p =
          if (t.proc p).state = l.state ∧ (t.proc p).priority ≠ 0 then
            { t.proc p with priority := (t.proc p).priority - 1 }
          else t.proc p := by
  refine ⟨?_, fun l hl => ?_⟩
  · obtain ⟨t', heq, hL', -, hproc⟩ := promoteReady_spec (List.finRange MAX) hL
    have hup : ∀ j : Fin MAX, ∀ p ∈ L (.ready j.succ), p ∈ L.promoted (.ready j.castSucc) := by
      intro j p hp
      rw [promoted_ready]
      refine List.mem_append_right _ ?_
      rwa [dif_pos (by exact Nat.succ_lt_succ j.isLt)]
    refine ⟨t', L.promoted, heq, hL', ?_, fun j hj => ?_, ?_, fun l hl => promoted_other hl _,
      fun j p hp => ?_, fun p hp => ?_⟩
    · exact promoted_ready L 0
    · rw [promoted_ready, if_neg fun e => hj.ne' (congrArg Fin.val e), List.nil_append]
      exact dif_pos (Nat.succ_lt_succ j.isLt)
    · exact promoted_ready L (Fin.last MAX)
    · obtain ⟨⟨x, hx⟩, -⟩ := hproc p
      have hnew : (t'.proc p).priority.toNat = j := hL'.priority (hup j p hp)
      have hold : (t.proc p).priority.toNat = j + 1 := hL.priority hp
      have hxp : x = (t.proc p).priority - 1 := by
        rw [hx] at hnew
        exact eq_pred_of_toNat (by rw [hold, hnew])
      exact ⟨hnew, by rw [hx, hxp]⟩
    · obtain ⟨⟨x, hx⟩, hsame⟩ := hproc p
      rcases eq_or_ne (t.proc p).state .runnable with hst | hst
      · -- a runnable process that does not move is on `ready[0]` before and after
        have h0 : p ∈ L (.ready 0) := by
          have hm := (hL.mem _ p).2 (Proc.list?_runnable hst (hL.bound p))
          generalize hi : (⟨_, Nat.lt_succ_of_le (hL.bound p)⟩ : Fin (MAX + 1)) = i at hm
          cases i using Fin.cases with
          | zero => exact hm
          | succ j => exact absurd hm (hp j)
        have h0' : p ∈ L.promoted (.ready 0) := by
          rw [promoted_ready]
          exact List.mem_append_left _ h0
        have hx0 : x = (t.proc p).priority := by
          have hnew := hL'.priority h0'
          rw [hx] at hnew
          exact UInt32.toNat_inj.1 (hnew.trans (hL.priority h0).symm)
        rw [hx, hx0]
      · exact hsame hst
  · have hr : l.state ≠ .runnable := by
      rcases hl with rfl | rfl <;> exact nofun
    obtain ⟨t', heq, hL', -⟩ := promotiononotherlists_spec hr hL
    have heq' := heq
    rw [promotiononotherlists_eq hL] at heq'
    cases heq'
    refine ⟨_, heq, hL', rfl, fun p => ?_⟩
    have hmem : p ∈ L l ↔ (t.proc p).state = l.state :=
      ⟨hL.state, fun h => hL.mem_of_state h hr⟩
    simp only [hmem, Proc.promoted, DEFAULT_PRIORITY]
    split
    · next h => simp only [h, true_and]
    · next h => simp only [h, false_and, if_false]

/-- The first process gives its two children the priorities 1 and 2 and itself the priority 3, and
goes to sleep. -/
def levelsRun : List Act :=
  [Act.enter cpu0, .turn cpu0] ++ forkActs cpu0 ++ forkActs cpu0 ++
  [.setpriority cpu0 2 1, .setpriority cpu0 3 2, .setpriority cpu0 1 3, .sleep cpu0 (.addr 0)]

/-- Each of the three goes up by one level. -/
theorem promotion_one_level_levelsRun :
    ∃ s L L' t₁ t₂, (Sys.init booted).run levelsRun = .ok s ∧ ListInv s.t.proc s.t.links L ∧
      childSlot ∈ L (.ready 1) ∧ secondSlot ∈ L (.ready 2) ∧ (s.t.proc initSlot).priority = 3 ∧
      promoteReady s.t (List.finRange MAX) = .ok t₁ ∧ ListInv t₁.proc t₁.links L' ∧
      childSlot ∈ L' (.ready 0) ∧ secondSlot ∈ L' (.ready 1) ∧
      promotiononotherlists .sleep s.t = .ok t₂ ∧ (t₂.proc initSlot).priority = 2 := by
  have hrun : ((Sys.init booted).run levelsRun).toOption.any (fun s => decide
      ((s.t.proc childSlot).list? = some (.ready 1) ∧ (s.t.proc secondSlot).list? = some (.ready 2) ∧
        (s.t.proc initSlot).state = .sleeping ∧ (s.t.proc initSlot).priority = 3)) = true := by
    decide +kernel
  obtain ⟨s, hs, hf⟩ := exists_ok hrun
  obtain ⟨h1, h2, hsleep, h3⟩ := of_decide_eq_true hf
  obtain ⟨L, hL⟩ := ((Sys.Reachable.init userinit_eq).run hs).inv.table
  obtain ⟨⟨t₁, L', heq, hL', h0', hup, -⟩, hother⟩ := promotion_one_level hL
  obtain ⟨t₂, heq₂, -, -, hproc⟩ := hother .sleep (.inl rfl)
  have hc := (hL.mem _ _).2 h1
  have hsec := (hL.mem _ _).2 h2
  refine ⟨s, L, L', t₁, t₂, hs, hL, hc, hsec, h3, heq, hL', ?_, ?_, heq₂, ?_⟩
  · rw [h0']
    exact List.mem_append_right _ hc
  · exact (hup ⟨1, by decide⟩ (by decide)).symm ▸ hsec
  · rw [hproc, if_pos ⟨hsleep, by rw [h3]; decide⟩, h3]
    rfl

end

end TronBoss
