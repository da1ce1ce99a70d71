import TronBoss.Proc.BootSpec
import TronBoss.Proc.ExitSpec

/-!
# The list build against the array build

`wakeup1`, `kill` and the loop of `exit` over the children, as `proc.c` has them without
`CS333_P3P4`: each scans `ptable.proc` from its first slot. On a table that satisfies the
process-list invariant the list versions leave the same processes, since the lists together hold
every slot in use. For `kill` this needs one thing more: the scan sees `UNUSED` slots as well, and
such a slot may keep the pid of a process that `fork` gave up.
-/

namespace TronBoss

open Function List

namespace ArrayBuild

/-- `wakeup1` of the array build. -/
def wakeup1 (chan : Chan) (t : PTable) : PTable :=
  (List.finRange NPROC).foldl (fun t p =>
    if (t.proc p).state = .sleeping ∧ (t.proc p).chan = chan then
      t.modProc p fun q => { q with state := .runnable }
    else t) t

/-- One turn of the loop of `exit` of the array build. -/
def adoptChild (proc : Slot) (t : PTable) (p : Slot) : PTable :=
  if (t.proc p).parent = some proc then
    let t := t.modProc p fun q => { q with parent := t.initproc }
    if (t.proc p).state = .zombie then wakeup1 (.ofPtr t.initproc) t else t
  else t

/-- The loop of `exit` of the array build that passes abandoned children to `initproc`. -/
def exitReparent (proc : Slot) (t : PTable) : PTable :=
  (List.finRange NPROC).foldl (adoptChild proc) t

/-- The loop of `kill` of the array build. -/
def killLoop (pid : UInt32) (t : PTable) : List Slot → Int × PTable
  | [] => (-1, t)
  | p :: ps =>
    if (t.proc p).pid = pid then
      let t := t.modProc p fun q => { q with killed := true }
      if (t.proc p).state = .sleeping then (0, t.modProc p fun q => { q with state := .runnable })
      else (0, t)
    else killLoop pid t ps

/-- `kill` of the array build. -/
def kill (pid : Int32) (t : PTable) : Int × PTable :=
  killLoop pid.toUInt32 t (List.finRange NPROC)

section
variable {t : PTable} {p : Slot}

/-! ## Waking up -/

/-- The scan of `wakeup1` wakes exactly the processes that sleep on the channel. -/
theorem wakeup1_eq (chan : Chan) (t : PTable) :
    wakeup1 chan t = { t with proc := fun q => (t.proc q).woken chan } := by
  have hstep : (fun (t : PTable) (p : Slot) =>
      if (t.proc p).state = .sleeping ∧ (t.proc p).chan = chan then
        t.modProc p fun q => { q with state := .runnable }
      else t) = fun t p => t.modProc p (Proc.woken chan) := by
    funext t p
    unfold PTable.modProc Proc.woken
    split
    · rfl
    · rw [update_eq_self]
  rw [wakeup1, hstep, foldl_modProc _ (nodup_finRange NPROC)]
  simp

/-! ## Abandoned children -/

/-- One turn of the loop of `exit`. -/
theorem adoptChild_eq (t : PTable) (y : Slot) :
    adoptChild p t y = { t with proc := reparentOn p t.initproc [y] t.proc } := by
  have hex : (∃ z ∈ [y], (t.proc z).state = .zombie ∧ (t.proc z).parent = some p) ↔
      (t.proc y).state = .zombie ∧ (t.proc y).parent = some p := by
    simp
  unfold adoptChild reparentOn
  simp only [hex]
  split
  · next hpar =>
    have hstate : (adoptOn p t.initproc [y] t.proc y).state = (t.proc y).state := by
      simp [adoptOn]
    simp only [adoptOn_child hpar, hstate, hpar, and_true]
    split
    · rw [wakeup1_eq]
    · rfl
  · next hpar =>
    simp only [hpar, and_false, if_false, adoptOn_of_ne hpar]

theorem foldl_adoptChild : ∀ {ys : List Slot} {t : PTable}, ys.Nodup →
    ys.foldl (adoptChild p) t = { t with proc := reparentOn p t.initproc ys t.proc }
  | [], t, _ => by rw [List.foldl_nil, reparentOn_nil]
  | y :: ys, t, h => by
    rw [List.nodup_cons] at h
    rw [List.foldl_cons, adoptChild_eq, foldl_adoptChild h.2]
    dsimp only
    rw [reparentOn_cons h.1]

/-- The loop of `exit` over the array, when no `UNUSED` slot has a parent. -/
theorem exitReparent_eq (hpar : ∀ q, (t.proc q).state = .unused → (t.proc q).parent = none) :
    exitReparent p t = { t with proc := reparented p t.initproc t.proc } := by
  have hproc : reparentOn p t.initproc (List.finRange NPROC) t.proc =
      reparented p t.initproc t.proc := by
    funext q
    have hq : adoptOn p t.initproc (List.finRange NPROC) t.proc q =
        if (t.proc q).state = .unused then t.proc q else (t.proc q).adopted p t.initproc := by
      rw [adoptOn, if_pos (mem_finRange q)]
      split
      · next hu => rw [Proc.adopted, if_neg (by simp [hpar q hu])]
      · rfl
    simp only [reparentOn, reparented, hq, mem_finRange, true_and]
  rw [exitReparent, foldl_adoptChild (nodup_finRange NPROC), hproc]

/-! ## Kill -/

/-- The scan of `kill` marks the first slot with the pid. -/
theorem killLoop_eq (pid : UInt32) (t : PTable) : ∀ ps, killLoop pid t ps =
    (if (ps.find? fun p => decide ((t.proc p).pid = pid)).isSome then 0 else -1,
      { t with proc := killedProcs t.proc (ps.find? fun p => decide ((t.proc p).pid = pid)) })
  | [] => rfl
  | p :: ps => by
    rw [killLoop]
    split
    · next h =>
      rw [List.find?_cons_of_pos (by simpa using h)]
      simp only [PTable.modProc, update_self, update_idem, killedProcs,
        Proc.marked, Option.isSome_some, if_true]
      split <;> rfl
    · next h =>
      rw [List.find?_cons_of_neg (by simpa using h)]
      exact killLoop_eq pid t ps

/-- What the scan of the slots finds is the first slot with the property. -/
theorem find?_finRange {n : Nat} {f : Fin n → Bool} {p : Fin n}
    (h : (List.finRange n).find? f = some p) : f p ∧ ∀ q < p, ¬ f q := by
  rw [find?_eq_some_iff_getElem] at h
  obtain ⟨hp, i, hi, heq, hlt⟩ := h
  refine ⟨hp, fun q hq => ?_⟩
  rw [getElem_finRange] at heq
  have hqi : q.val < i := by
    rw [← heq] at hq
    exact hq
  simpa using hlt q.val hqi

/-- The pid of a process that `kill` may mark is found on the lists and, unless an `UNUSED` slot
before it has it as well, in the array at the same slot. -/
theorem find?_eq_killTarget {L : Lists} {pid : UInt32} (hL : ListInv t.proc t.links L)
    (hpid : ∀ p q, (t.proc p).state ≠ .unused → (t.proc q).state ≠ .unused →
      (t.proc p).pid = (t.proc q).pid → p = q)
    (h : (∀ q, (t.proc q).pid ≠ pid) ∨
      ∃ p, (t.proc p).pid = pid ∧ (t.proc p).state ≠ .unused ∧ (t.proc p).state ≠ .zombie ∧
        ∀ q < p, (t.proc q).state = .unused → (t.proc q).pid ≠ pid) :
    (List.finRange NPROC).find? (fun p => decide ((t.proc p).pid = pid)) =
      killTarget L t.proc pid := by
  rcases h with h | ⟨p, hp, hu, hz, hfirst⟩
  · rw [killTarget, find?_eq_none.2 (by simpa using h), find?_eq_none.2 (by simp [h])]
  · have harray : (List.finRange NPROC).find? (fun p => decide ((t.proc p).pid = pid)) =
        some p := by
      cases hf : (List.finRange NPROC).find? fun p => decide ((t.proc p).pid = pid) with
      | none => exact absurd hp (by simpa using find?_eq_none.1 hf p (mem_finRange p))
      | some r =>
        obtain ⟨hr, hmin⟩ := find?_finRange hf
        rw [decide_eq_true_eq] at hr
        have hrp : ¬ p < r := fun hlt => hmin p hlt (by simpa using hp)
        rcases eq_or_ne (t.proc r).state .unused with hru | hru
        · rcases eq_or_ne r p with rfl | hne
          · rfl
          · exact absurd hr (hfirst r (lt_of_le_of_ne (not_lt.1 hrp) hne) hru)
        · rw [hpid r p hru hu (hr.trans hp.symm)]
    have hlist : killTarget L t.proc pid = some p := by
      cases hf : killTarget L t.proc pid with
      | none =>
        exact absurd hp (by simpa using find?_eq_none.1 hf p ((mem_killOrder hL).2 ⟨hu, hz⟩))
      | some r =>
        have hr : (t.proc r).pid = pid := by simpa using find?_some hf
        have hru := ((mem_killOrder hL).1 (mem_of_find?_eq_some hf)).1
        rw [hpid r p hru hu (hr.trans hp.symm)]
    rw [harray, hlist]

end

end ArrayBuild

/-- On a table that satisfies the process-list invariant, with distinct pids in the slots in use and
no parent in the others, the routines of the list build return and leave in every slot what those of
the array build leave; for `kill` when the pid is that of no slot, or of a process before which no
`UNUSED` slot has it. -/
theorem list_build_eq_array_build {t : PTable} (ht : t.Inv)
    (hpid : ∀ p q, (t.proc p).state ≠ .unused → (t.proc q).state ≠ .unused →
      (t.proc p).pid = (t.proc q).pid → p = q)
    (hpar : ∀ q, (t.proc q).state = .unused → (t.proc q).parent = none) :
    (∀ chan, ∃ t', wakeup1 chan t = .ok t' ∧ t'.proc = (ArrayBuild.wakeup1 chan t).proc) ∧
    (∀ p, ∃ t', exitReparent p t = .ok t' ∧ t'.proc = (ArrayBuild.exitReparent p t).proc) ∧
    ∀ pid : Int32,
      ((∀ q, (t.proc q).pid ≠ pid.toUInt32) ∨
        ∃ p, (t.proc p).pid = pid.toUInt32 ∧ (t.proc p).state ≠ .unused ∧
          (t.proc p).state ≠ .zombie ∧
          ∀ q < p, (t.proc q).state = .unused → (t.proc q).pid ≠ pid.toUInt32) →
      ∃ rc t', kill pid t = .ok (rc, t') ∧ rc = (ArrayBuild.kill pid t).1 ∧
        t'.proc = (ArrayBuild.kill pid t).2.proc := by
  obtain ⟨L, hL⟩ := ht
  refine ⟨fun chan => ?_, fun p => ?_, fun pid h => ?_⟩
  · obtain ⟨k, L', -, -, heq⟩ := wakeup1_spec chan hL
    exact ⟨_, heq, by rw [ArrayBuild.wakeup1_eq]⟩
  · obtain ⟨k, L', -, heq⟩ := exitReparent_spec (p := p) hL
    exact ⟨_, heq, by rw [ArrayBuild.exitReparent_eq hpar]⟩
  · obtain ⟨k, L', -, heq⟩ := kill_spec pid hL
    refine ⟨_, _, heq, ?_, ?_⟩
    · rw [ArrayBuild.kill, ArrayBuild.killLoop_eq, ArrayBuild.find?_eq_killTarget hL hpid h]
    · rw [ArrayBuild.kill, ArrayBuild.killLoop_eq, ArrayBuild.find?_eq_killTarget hL hpid h]

/-- The booted table satisfies the assumptions, and `kill(1)` is one of the cases covered. -/
theorem list_build_eq_array_build_booted :
    booted.Inv ∧ ∃ rc t', kill 1 booted = .ok (rc, t') ∧ rc = (ArrayBuild.kill 1 booted).1 ∧
      t'.proc = (ArrayBuild.kill 1 booted).2.proc := by
  have huse : ∀ q, (booted.proc q).state ≠ .unused → q = initSlot := by decide +kernel
  refine ⟨booted_inv, (list_build_eq_array_build booted_inv (fun p q hp hq _ => ?_) ?_).2.2 1 ?_⟩
  · rw [huse p hp, huse q hq]
  · decide +kernel
  · exact .inr ⟨initSlot, by decide +kernel⟩

/-- The booted table with the pid of the first process left in an `UNUSED` slot. -/
def stalePid : PTable := booted.modProc ⟨0, NPROC_pos⟩ fun q => { q with pid := 1 }

/-- There the array build marks the `UNUSED` slot, and the list build the process. -/
theorem kill_differs_stalePid :
    stalePid.Inv ∧
    (∀ p q, (stalePid.proc p).state ≠ .unused → (stalePid.proc q).state ≠ .unused →
      (stalePid.proc p).pid = (stalePid.proc q).pid → p = q) ∧
    (∀ q, (stalePid.proc q).state = .unused → (stalePid.proc q).parent = none) ∧
    (∃ p, (stalePid.proc p).pid = (1 : Int32).toUInt32 ∧ (stalePid.proc p).state = .runnable) ∧
    ∃ rc t', kill 1 stalePid = .ok (rc, t') ∧
      ∃ q, (t'.proc q).killed ≠ ((ArrayBuild.kill 1 stalePid).2.proc q).killed := by
  obtain ⟨L, hL⟩ := booted_inv
  have hL' : ListInv stalePid.proc stalePid.links L := hL.modify rfl rfl
  have huse : ∀ q, (stalePid.proc q).state ≠ .unused → q = initSlot := by decide +kernel
  obtain ⟨k, -, -, heq⟩ := kill_spec 1 hL'
  have hlist : (kill 1 stalePid).toOption.map (fun r => (r.2.proc initSlot).killed) =
      some true := by
    decide +kernel
  rw [heq] at hlist
  refine ⟨⟨L, hL'⟩, fun p q hp hq _ => by rw [huse p hp, huse q hq], by decide +kernel,
    ⟨initSlot, by decide +kernel⟩, _, _, heq, initSlot, ?_⟩
  refine (Option.some.inj hlist).trans_ne ?_
  decide +kernel

end TronBoss
