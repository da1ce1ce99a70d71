import TronBoss.Proc.ExitSpec

/-!
# Priorities and dispatch keep the process-list invariant

`setpriority` and the promotion change the `priority` field that decides on which ready list a
process belongs. On the running and sleep lists the field is free to change within its range; a
process on a ready list is moved along with its priority, by `setreadyprocpriority` one at a time
and by `promotiononreadylists` a whole list at once.
-/

namespace TronBoss

open Lib Function List

section
variable {t : PTable} {p : Slot}

/-- A priority that `setpriority` accepts is in range. -/
theorem priority_bound {priority : Int32}
    (h : ¬ (priority < 0 ∨ Int32.ofNat MAX < priority)) : priority.toUInt32.toNat ≤ MAX := by
  rw [not_or, Int32.lt_iff_toInt_lt, Int32.lt_iff_toInt_lt] at h
  have h0 : (0 : Int32).toInt = 0 := rfl
  have h5 : (Int32.ofNat MAX).toInt = 5 := by decide
  have hp : priority.toInt = priority.toUInt32.toBitVec.toInt := rfl
  have hn : priority.toUInt32.toNat = priority.toUInt32.toBitVec.toNat := rfl
  have hM : MAX = 5 := rfl
  rw [h0, h5, hp, BitVec.toInt_eq_toNat_cond] at h
  split at h <;> omega

/-- The list of a process that is not runnable does not depend on its priority. -/
theorem Proc.list?_setPriority {q q' : Proc} (hs : q.state ≠ .runnable)
    (h : q'.state = q.state) : q'.list? = q.list? := by
  unfold Proc.list?
  rw [h]
  cases hq : q.state with
  | runnable => exact absurd hq hs
  | _ => rfl

/-- The fields of a process that gets another priority, perhaps with a whole budget. -/
def Proc.Ranked (q q' : Proc) : Prop :=
  ∃ priority budget, q' = { q with priority := priority, budget := budget } ∧
    (budget = q.budget ∨ budget = DEFAULT_BUDGET)

theorem Proc.Ranked.priority {q : Proc} (x : UInt32) : q.Ranked { q with priority := x } :=
  ⟨x, _, rfl, .inl rfl⟩

theorem Proc.Ranked.trans {q1 q2 q3 : Proc} (h : q1.Ranked q2) (h' : q2.Ranked q3) :
    q1.Ranked q3 := by
  obtain ⟨x, y, rfl, hy⟩ := h
  obtain ⟨x', y', rfl, hy'⟩ := h'
  refine ⟨x', y', rfl, hy'.elim (fun e => ?_) .inr⟩
  rwa [e]

/-- A table change that touches priorities, budgets and links only. -/
structure Reprioritized (t t' : PTable) : Prop where
  proc : ∀ q, (t.proc q).Ranked (t'.proc q)
  promoteAtTime : t'.promoteAtTime = t.promoteAtTime
  initproc : t'.initproc = t.initproc
  nextpid : t'.nextpid = t.nextpid
  ticks : t'.ticks = t.ticks

theorem Reprioritized.refl (t : PTable) : Reprioritized t t :=
  ⟨fun _ => .priority _, rfl, rfl, rfl, rfl⟩

theorem Reprioritized.trans {t1 t2 t3 : PTable} (h : Reprioritized t1 t2)
    (h' : Reprioritized t2 t3) : Reprioritized t1 t3 :=
  ⟨fun q => (h.proc q).trans (h'.proc q), h'.promoteAtTime.trans h.promoteAtTime,
    h'.initproc.trans h.initproc, h'.nextpid.trans h.nextpid, h'.ticks.trans h.ticks⟩

theorem Reprioritized.update {q : Proc} {k : Links} (hq : (t.proc p).Ranked q) :
    Reprioritized t { t with proc := update t.proc p q, links := k } := by
  refine ⟨fun r => ?_, rfl, rfl, rfl, rfl⟩
  rcases eq_or_ne r p with rfl | hr
  · simpa using hq
  · dsimp only
    rw [update_of_ne hr]
    exact .priority _

theorem Reprioritized.state {t' : PTable} (h : Reprioritized t t') (q : Slot) :
    (t'.proc q).state = (t.proc q).state := by
  obtain ⟨_, _, e, -⟩ := h.proc q
  rw [e]

end

/-! ## `setpriority` -/

/-- The effect of a new priority for the process `p` on the table and its lists. -/
structure Reranked (t : PTable) (L : Lists) (p : Slot) (priority : UInt32) (t' : PTable)
    (L' : Lists) : Prop where
  inv : ListInv t'.proc t'.links L'
  proc : t'.proc = update t.proc p
    { t.proc p with priority := priority, budget := DEFAULT_BUDGET }
  rest : t' = { t with proc := t'.proc, links := t'.links }
  /-- The other members of every list stay, in their order. -/
  order : ∀ l, (L' l).erase p = (L l).erase p
  /-- A runnable process is at the tail of its new list. -/
  tail : (t.proc p).state = .runnable →
    ∃ i : Fin (MAX + 1), i.val = priority.toNat ∧ L' (.ready i) = L (.ready i) ++ [p]
  stay : (t.proc p).state ≠ .runnable → L' = L

/-- A process that `setpriority` finds: one that is `RUNNING`, `SLEEPING` or `RUNNABLE`. -/
def Proc.live (q : Proc) : Prop :=
  q.state = .running ∨ q.state = .sleeping ∨ q.state = .runnable

instance (q : Proc) : Decidable q.live := inferInstanceAs (Decidable (_ ∨ _))

/-- What a search routine of `setpriority` returns when it has found a process, or none. -/
def Ranks (t : PTable) (L : Lists) (priority : UInt32) (r : Except Stop (Int × PTable)) :
    Option Slot → Prop
  | none => r = .ok (0, t)
  | some p =>
    if (t.proc p).priority = priority then r = .ok (-1, t)
    else ∃ t' L', r = .ok (1, t') ∧ Reranked t L p priority t' L'

section
variable {t : PTable} {L : Lists} {pid priority : UInt32}

/-- The search of one list finds the first process with the pid. -/
theorem setprocpriority_ranks {l : ListId} (hl : l.state ≠ .runnable) (hb : priority.toNat ≤ MAX)
    (hL : ListInv t.proc t.links L) :
    Ranks t L priority (setprocpriority l pid priority t)
      ((L l).find? fun q => decide ((t.proc q).pid = pid)) := by
  simp only [setprocpriority, t.search_eq hL, ok_bind]
  cases hf : (L l).find? fun q => decide ((t.proc q).pid = pid) with
  | none => exact rfl
  | some p =>
    have hst : (t.proc p).state ≠ .runnable := hL.state (mem_of_find?_eq_some hf) ▸ hl
    dsimp only [Ranks]
    split
    · rfl
    · exact ⟨_, L, rfl, hL.assign (Proc.list?_setPriority hst rfl) hb, rfl, rfl, fun _ => rfl,
        fun h => absurd h hst, fun _ => rfl⟩

/-- A runnable process is moved to the tail of the list of its new priority. -/
theorem reranked_ready {p : Slot} {i : Fin (MAX + 1)} (hb : priority.toNat ≤ MAX)
    (hL : ListInv t.proc t.links L) (hp : p ∈ L (.ready i))
    (hne : (t.proc p).priority ≠ priority) :
    ∃ k1 k2 L', removefromlist (.ready i) (some p) t.links = .ok (0, k1) ∧
      readyList priority = .ok (.ready ⟨priority.toNat, Nat.lt_succ_of_le hb⟩) ∧
      addtoreadyprioritylist (.ready ⟨priority.toNat, Nat.lt_succ_of_le hb⟩) (some p) k1 =
        .ok (0, k2) ∧
      Reranked t L p priority { t with
        proc := update t.proc p
          { t.proc p with priority := priority, budget := DEFAULT_BUDGET }
        links := k2 } L' := by
  have hst : (t.proc p).state = .runnable := hL.state hp
  obtain ⟨k1, hk1, hw⟩ := hL.remove hp
  have hlist : Proc.list? { t.proc p with priority := priority, budget := DEFAULT_BUDGET } =
      some (.ready ⟨priority.toNat, Nat.lt_succ_of_le hb⟩) := Proc.list?_runnable (by exact hst) hb
  obtain ⟨k2, hk2, hI⟩ := hw.pushBack hlist hb
  have hi : ListId.ready ⟨priority.toNat, Nat.lt_succ_of_le hb⟩ ≠ .ready i := by
    intro e
    injection e with e
    exact hne (UInt32.toNat_inj.1 ((hL.priority hp).trans (congrArg Fin.val e).symm))
  have hpj : p ∉ L (.ready ⟨priority.toNat, Nat.lt_succ_of_le hb⟩) := fun h =>
    hi (hL.holds.disj _ _ p h hp)
  refine ⟨k1, k2, _, hk1, dif_pos (Nat.lt_succ_of_le hb), hk2, hI, rfl, rfl, fun l => ?_,
    fun _ => ⟨⟨priority.toNat, Nat.lt_succ_of_le hb⟩, rfl, ?_⟩, fun h => absurd hst h⟩
  · rcases eq_or_ne l (.ready ⟨priority.toNat, Nat.lt_succ_of_le hb⟩) with rfl | hj
    · rw [update_self, update_of_ne hi, erase_append_right _ hpj,
        erase_of_not_mem hpj]
      simp
    · rw [update_of_ne hj]
      rcases eq_or_ne l (.ready i) with rfl | hl
      · rw [update_self, erase_of_not_mem]
        exact (hL.chain _).nodup.not_mem_erase
      · rw [update_of_ne hl]
  · rw [update_self, update_of_ne hi]

/-- The search over the ready lists finds the first process with the pid and moves it. -/
theorem setreadyprocpriority_ranks (hb : priority.toNat ≤ MAX) (hL : ListInv t.proc t.links L) :
    ∀ is, Ranks t L priority (setreadyprocpriority pid priority t is)
      ((is.flatMap fun i => L (.ready i)).find? fun q => decide ((t.proc q).pid = pid))
  | [] => rfl
  | i :: is => by
    rw [setreadyprocpriority, t.search_eq hL, ok_bind, List.flatMap_cons, List.find?_append]
    cases hf : (L (.ready i)).find? fun q => decide ((t.proc q).pid = pid) with
    | none => exact setreadyprocpriority_ranks hb hL is
    | some p =>
      dsimp only [Ranks, Option.some_or]
      split
      · rfl
      · next hne =>
        obtain ⟨k1, k2, L', hk1, hl, hk2, hr⟩ :=
          reranked_ready hb hL (mem_of_find?_eq_some hf) hne
        refine ⟨_, L', ?_, hr⟩
        simp only [PTable.modProc, hk1, ok_bind]
        rw [panicIf_neg (by decide)]
        simp only [ok_bind, update_self]
        rw [hl, ok_bind, hk2, ok_bind]
        dsimp only
        rw [panicIf_neg (by decide)]
        rfl

/-- What `setpriority` does: the outcomes of its checks in their order, and then those of the
search. -/
inductive PrioritySet (t : PTable) (L : Lists) (pid priority : Int32) : Int → PTable → Prop
  | badPid (h : pid < 0 ∨ 32767 < pid) : PrioritySet t L pid priority (-2) t
  | badPriority (hp : ¬ (pid < 0 ∨ 32767 < pid))
      (h : priority < 0 ∨ Int32.ofNat MAX < priority) : PrioritySet t L pid priority (-3) t
  | missing (hp : ¬ (pid < 0 ∨ 32767 < pid))
      (hv : ¬ (priority < 0 ∨ Int32.ofNat MAX < priority))
      (h : ∀ p, (t.proc p).live → (t.proc p).pid ≠ pid.toUInt32) :
    PrioritySet t L pid priority (-4) t
  | same {p} (hp : ¬ (pid < 0 ∨ 32767 < pid))
      (hv : ¬ (priority < 0 ∨ Int32.ofNat MAX < priority)) (hl : (t.proc p).live)
      (h : (t.proc p).pid = pid.toUInt32) (he : (t.proc p).priority = priority.toUInt32) :
    PrioritySet t L pid priority (-5) t
  | set {p t' L'} (hp : ¬ (pid < 0 ∨ 32767 < pid))
      (hv : ¬ (priority < 0 ∨ Int32.ofNat MAX < priority)) (hl : (t.proc p).live)
      (h : (t.proc p).pid = pid.toUInt32) (he : (t.proc p).priority ≠ priority.toUInt32)
      (hr : Reranked t L p priority.toUInt32 t' L') : PrioritySet t L pid priority 0 t'

end

/-- The slots in the order in which `setpriority` looks at them. -/
def priorityOrder (L : Lists) : List Slot :=
  L .running ++ (L .sleep ++ (List.finRange (MAX + 1)).flatMap fun i => L (.ready i))

section
variable {t : PTable} {L : Lists}

/-- `setpriority` looks at every live process. -/
theorem mem_priorityOrder {p : Slot} (hL : ListInv t.proc t.links L) :
    p ∈ priorityOrder L ↔ (t.proc p).live := by
  simp only [priorityOrder, mem_append, mem_flatMap, mem_finRange, true_and]
  constructor
  · rintro (h | h | ⟨i, h⟩)
    · exact .inl (hL.state h)
    · exact .inr (.inl (hL.state h))
    · exact .inr (.inr (hL.state h))
  · rintro (h | h | h)
    · exact .inl (hL.mem_of_state (l := .running) h nofun)
    · exact .inr (.inl (hL.mem_of_state (l := .sleep) h nofun))
    · exact .inr (.inr ⟨_, (hL.mem _ p).2 (Proc.list?_runnable h (hL.bound p))⟩)

/-- The result of `setpriority` when its searches find a process, or none. -/
def Settles (t : PTable) (L : Lists) (priority : UInt32) (r : Except Stop (Int × PTable)) :
    Option Slot → Prop
  | none => r = .ok (-4, t)
  | some p =>
    if (t.proc p).priority = priority then r = .ok (-5, t)
    else ∃ t' L', r = .ok (0, t') ∧ Reranked t L p priority t' L'

/-- A search, and what follows it when it finds nothing. -/
theorem Ranks.orElse {priority : UInt32} {r : Except Stop (Int × PTable)}
    {found found' : Option Slot} {g : Int × PTable → Except Stop (Int × PTable)}
    {f : PTable → Except Stop (Int × PTable)} (h : Ranks t L priority r found)
    (hg : ∀ rc t, g (rc, t) = if rc = -1 then .ok (-5, t) else if rc = 1 then .ok (0, t) else f t)
    (hf : Settles t L priority (f t) found') :
    Settles t L priority (r >>= g) (found.or found') := by
  cases found with
  | none =>
    cases h
    rw [ok_bind, hg]
    exact hf
  | some p =>
    dsimp only [Ranks, Settles, Option.some_or] at h ⊢
    split
    · next he =>
      rw [if_pos he] at h
      rw [h, ok_bind, hg]
      rfl
    · next he =>
      rw [if_neg he] at h
      obtain ⟨t', L', rfl, hr⟩ := h
      exact ⟨t', L', by rw [ok_bind, hg]; rfl, hr⟩

/-- Every call of `setpriority` has one of the outcomes. -/
theorem setpriority_cases (pid priority : Int32) (hL : ListInv t.proc t.links L) :
    ∃ rc t', setpriority pid priority t = .ok (rc, t') ∧ PrioritySet t L pid priority rc t' := by
  rcases em (pid < 0 ∨ 32767 < pid) with hp | hp
  · exact ⟨-2, t, if_pos hp, .badPid hp⟩
  rcases em (priority < 0 ∨ Int32.ofNat MAX < priority) with hpr | hpr
  · exact ⟨-3, t, by rw [setpriority, if_neg hp, if_pos hpr]; rfl, .badPriority hp hpr⟩
  have hb := priority_bound hpr
  have hs : Settles t L priority.toUInt32 (setpriority pid priority t)
      ((priorityOrder L).find? fun q => decide ((t.proc q).pid = pid.toUInt32)) := by
    rw [setpriority, if_neg hp, if_neg hpr, priorityOrder, find?_append, find?_append,
      ← Option.or_none (o := find? _ (flatMap _ _))]
    refine (setprocpriority_ranks (l := .running) nofun hb hL).orElse (fun _ _ => rfl) ?_
    refine (setprocpriority_ranks (l := .sleep) nofun hb hL).orElse (fun _ _ => rfl) ?_
    refine (setreadyprocpriority_ranks hb hL _).orElse (fun _ _ => rfl) ?_
    rfl
  cases hf : (priorityOrder L).find? fun q => decide ((t.proc q).pid = pid.toUInt32) with
  | none =>
    rw [hf] at hs
    refine ⟨-4, t, hs, .missing hp hpr fun p hl h => ?_⟩
    have := find?_eq_none.1 hf p ((mem_priorityOrder hL).2 hl)
    exact this (decide_eq_true h)
  | some p =>
    have hl : (t.proc p).live := (mem_priorityOrder hL).1 (mem_of_find?_eq_some hf)
    have hpid : (t.proc p).pid = pid.toUInt32 := by simpa using find?_some hf
    rw [hf] at hs
    dsimp only [Settles] at hs
    split at hs
    · next he => exact ⟨-5, t, hs, .same hp hpr hl hpid he⟩
    · next he =>
      obtain ⟨t', L', heq, hr⟩ := hs
      exact ⟨0, t', heq, .set hp hpr hl hpid he hr⟩

/-- `setpriority` returns for every pid and priority. -/
theorem setpriority_spec (pid priority : Int32) (hL : ListInv t.proc t.links L) :
    ∃ rc t', setpriority pid priority t = .ok (rc, t') ∧ t'.Inv ∧ Reprioritized t t' := by
  obtain ⟨rc, t', heq, hset⟩ := setpriority_cases pid priority hL
  refine ⟨rc, t', heq, ?_⟩
  cases hset with
  | set _ _ _ _ _ hr =>
    refine ⟨⟨_, hr.inv⟩, ?_⟩
    rw [hr.rest, hr.proc]
    exact .update ⟨_, _, rfl, .inr rfl⟩
  | _ => exact ⟨⟨L, hL⟩, .refl t⟩

end

/-! ## Promotion -/

section
variable {t : PTable} {p : Slot} {L : Lists}

/-- A promoted priority stays in range. -/
theorem priority_pred_bound {x : UInt32} (h : x.toNat ≤ MAX) (h0 : x ≠ DEFAULT_PRIORITY) :
    (x - 1).toNat ≤ MAX := by
  have hx : x.toNat ≠ 0 := fun e => h0 (UInt32.toNat_inj.1 e)
  have h1 : (1 : UInt32).toNat = 1 := rfl
  rw [UInt32.toNat_sub_of_le _ _ (by rw [UInt32.le_iff_toNat_le]; omega)]
  omega

/-- A process one level up. -/
def Proc.promoted (q : Proc) : Proc :=
  if q.priority ≠ DEFAULT_PRIORITY then { q with priority := q.priority - 1 } else q

theorem promotiononotherlists_eq (hL : ListInv t.proc t.links L) (l : ListId) :
    promotiononotherlists l t =
      .ok { t with proc := fun q => if q ∈ L l then (t.proc q).promoted else t.proc q } :=
  t.forList_eq hL l _

/-- `promotiononotherlists` on the sleep or the running list. -/
theorem promotiononotherlists_spec {l : ListId} (hl : l.state ≠ .runnable)
    (hL : ListInv t.proc t.links L) :
    ∃ t', promotiononotherlists l t = .ok t' ∧ ListInv t'.proc t'.links L ∧ Reprioritized t t' := by
  have hrep : Reprioritized t
      { t with proc := fun q => if q ∈ L l then (t.proc q).promoted else t.proc q } := by
    refine ⟨fun q => ?_, rfl, rfl, rfl, rfl⟩
    dsimp only [Proc.promoted]
    split
    · split <;> exact .priority _
    · exact .priority _
  refine ⟨_, promotiononotherlists_eq hL l, hL.congr (fun q => ?_) fun q => ?_, hrep⟩
  · rcases Classical.em (q ∈ L l) with hq | hq
    · exact Proc.list?_setPriority (hL.state hq ▸ hl) (hrep.state q)
    · simp [hq]
  · dsimp only [Proc.promoted]
    split
    · split
      · next h0 => exact priority_pred_bound (hL.bound q) h0
      · exact hL.bound q
    · exact hL.bound q

/-- The lists after `promotiononreadylists(j)`: `ready[j + 1]` is appended to `ready[j]`. -/
def Lists.promote (L : Lists) (j : Fin MAX) : Lists :=
  update (update L (.ready j.succ) []) (.ready j.castSucc)
    (L (.ready j.castSucc) ++ L (.ready j.succ))

/-- The processes after `promotiononreadylists(j)`. -/
def promoteProcs (proc : Slot → Proc) (L : Lists) (j : Fin MAX) (q : Slot) : Proc :=
  if q ∈ L (.ready j.succ) then { proc q with priority := UInt32.ofNat j } else proc q

/-- The membership part of the invariant after a promotion. -/
theorem ListInv.promote {proc : Slot → Proc} {k k' : Links} {j : Fin MAX}
    (h : ListInv proc k L) (hc : ∀ l, Chain k'.next (k'.head l) (L.promote j l)) :
    ListInv (promoteProcs proc L j) k' (L.promote j) := by
  have hj : (UInt32.ofNat j).toNat = j :=
    UInt32.toNat_ofNat_of_lt (lt_trans j.isLt (by decide))
  refine ⟨hc, fun l q => ?_, fun q => ?_⟩
  · by_cases hq : q ∈ L (.ready j.succ)
    · -- a process of the lower list is on the upper one now
      have hlist : (promoteProcs proc L j q).list? = some (.ready j.castSucc) := by
        have hst : (promoteProcs proc L j q).state = .runnable := by
          rw [promoteProcs, if_pos hq]
          exact h.state hq
        have hpr : (promoteProcs proc L j q).priority = UInt32.ofNat j := by
          rw [promoteProcs, if_pos hq]
        have hle : (promoteProcs proc L j q).priority.toNat ≤ MAX := by
          rw [hpr, hj]
          exact j.isLt.le
        rw [Proc.list?_runnable hst hle]
        simp only [hpr, hj]
        rfl
      rw [hlist, Option.some_inj, Lists.promote]
      by_cases e : l = .ready j.castSucc
      · subst e
        simp [hq]
      · rw [update_of_ne e]
        refine iff_of_false (fun hm => ?_) (Ne.symm e)
        by_cases e' : l = .ready j.succ
        · subst e'
          simp at hm
        · rw [update_of_ne e'] at hm
          exact e' (h.holds.disj _ _ q hm hq)
    · rw [promoteProcs, if_neg hq, ← h.mem, Lists.promote]
      by_cases e : l = .ready j.castSucc
      · subst e
        simp [hq]
      · rw [update_of_ne e]
        by_cases e' : l = .ready j.succ
        · subst e'
          simp [hq]
        · rw [update_of_ne e']
  · rw [promoteProcs]
    split
    · rw [hj]
      exact j.isLt.le
    · exact h.bound q

/-- The walk of `promotiononreadylists` that sets the priorities. -/
theorem promoteWalk_eq {t : PTable} {xs : List Slot} {p2 : Option Slot} (j : Fin MAX)
    (hc : Chain t.links.next p2 xs) (hf : xs.length < listFuel) :
    terminating (forNodes (fun t : PTable => t.links.next)
      (fun p t => t.modProc p fun q => { q with priority := UInt32.ofNat j }) listFuel p2 t) =
    .ok { t with proc := fun q =>
      if q ∈ xs then { t.proc q with priority := UInt32.ofNat j } else t.proc q } := by
  have hloop := forNodes_chain (fun t : PTable => t.links.next)
    (fun p t => t.modProc p fun q => { q with priority := UInt32.ofNat j })
    (fun _ _ => rfl) hc hf
  rw [hloop, foldl_modProc _ hc.nodup]
  rfl

/-- `promotiononreadylists(j)` appends `ready[j + 1]` to `ready[j]` and sets the priorities. -/
theorem promotiononreadylists_spec (j : Fin MAX) (hL : ListInv t.proc t.links L) :
    ∃ k, ListInv (promoteProcs t.proc L j) k (L.promote j) ∧
      promotiononreadylists j t = .ok { t with proc := promoteProcs t.proc L j, links := k } := by
  have hne : (ListId.ready j.succ) ≠ .ready j.castSucc := by
    intro e
    injection e with e
    exact absurd (congrArg Fin.val e) (by simp)
  have hlow := hL.chain (.ready j.succ)
  have hup := hL.chain (.ready j.castSucc)
  have hf := hL.holds.length_lt (.ready j.succ)
  cases hL1 : L (.ready j.castSucc) with
  | nil =>
    rw [hL1, chain_nil] at hup
    refine ⟨(t.links.setHead (.ready j.castSucc) (t.links.head (.ready j.succ))).setHead
      (.ready j.succ) none, hL.promote fun l => ?_, ?_⟩
    · simp only [Links.setHead_next, Links.setHead_head, Lists.promote, hL1, nil_append]
      by_cases e : l = .ready j.castSucc
      · subst e
        rw [update_self, update_of_ne (Ne.symm hne), update_self]
        exact hlow
      · rw [update_of_ne e]
        by_cases e' : l = .ready j.succ
        · subst e'
          simp
        · rw [update_of_ne e', update_of_ne e', update_of_ne e]
          exact hL.chain l
    · simp only [promotiononreadylists, hup]
      rw [promoteWalk_eq j (by exact hlow) hf]
      rfl
  | cons x xs =>
    obtain ⟨as, y, hy⟩ : ∃ as y, x :: xs = as ++ [y] :=
      ⟨_, _, (dropLast_append_getLast (by simp)).symm⟩
    have hyl : y ∈ L (.ready j.castSucc) := by
      rw [hL1, hy]
      simp
    have hy' : ∀ l, l ≠ .ready j.castSucc → y ∉ L l := hL.holds.not_mem hyl
    have hkeep : ∀ l, l ≠ .ready j.castSucc → ∀ q ∈ L l,
        update t.links.next y (t.links.head (.ready j.succ)) q = t.links.next q :=
      fun l hl q hq => update_of_ne (ne_of_mem_of_not_mem hq (hy' l hl)) ..
    have hlast : lastNode t.links.next listFuel x = some y := by
      have hfx := hL.holds.length_lt (.ready j.castSucc)
      rw [hL1] at hup hfx
      rw [lastNode_chain ⟨rfl, hup.2⟩ (lt_trans (by simp) hfx)]
      simp only [hy, getLast_append_singleton]
    refine ⟨(t.links.setNext y (t.links.head (.ready j.succ))).setHead (.ready j.succ) none,
      hL.promote fun l => ?_, ?_⟩
    · simp only [Links.setHead_next, Links.setHead_head, Links.setNext_next, Links.setNext_head,
        Lists.promote]
      by_cases e : l = .ready j.castSucc
      · subst e
        rw [update_self, update_of_ne (Ne.symm hne), hL1, hy, append_assoc,
          singleton_append]
        rw [hL1, hy] at hup
        refine hup.append ?_ fun z hz => ?_
        · rw [update_self]
          exact hlow.congr (hkeep _ hne)
        · have hnd := hup.nodup
          rw [nodup_append] at hnd
          exact update_of_ne (hnd.2.2 z hz y (by simp)) ..
      · rw [update_of_ne e]
        by_cases e' : l = .ready j.succ
        · subst e'
          simp
        · rw [update_of_ne e', update_of_ne e']
          exact (hL.chain l).congr (hkeep l e)
    · rw [hL1] at hup
      simp only [promotiononreadylists, hup.1, hlast, terminating_some, ok_bind]
      rw [promoteWalk_eq j (by exact hlow.congr (hkeep _ hne)) hf]
      rfl

/-- The loop over the levels changes priorities of runnable processes only. -/
theorem promoteReady_spec : ∀ (js : List (Fin MAX)) {t : PTable} {L : Lists},
    ListInv t.proc t.links L →
    ∃ t', promoteReady t js = .ok t' ∧ ListInv t'.proc t'.links (js.foldl Lists.promote L) ∧
      Reprioritized t t' ∧ ∀ q, (∃ x, t'.proc q = { t.proc q with priority := x }) ∧
        ((t.proc q).state ≠ .runnable → t'.proc q = t.proc q)
  | [], t, L, hL => ⟨t, rfl, hL, .refl t, fun q => ⟨⟨_, rfl⟩, fun _ => rfl⟩⟩
  | j :: js, t, L, hL => by
    obtain ⟨k, hI, h1⟩ := promotiononreadylists_spec j hL
    have hone : ∀ q, (∃ x, promoteProcs t.proc L j q = { t.proc q with priority := x }) ∧
        ((t.proc q).state ≠ .runnable → promoteProcs t.proc L j q = t.proc q) := by
      intro q
      unfold promoteProcs
      split
      · next hq => exact ⟨⟨_, rfl⟩, fun hne => absurd (hL.state hq) hne⟩
      · exact ⟨⟨_, rfl⟩, fun _ => rfl⟩
    obtain ⟨t', h2, hI', hr, hproc⟩ := promoteReady_spec js
      (t := { t with proc := promoteProcs t.proc L j, links := k }) hI
    have hr1 : Reprioritized t { t with proc := promoteProcs t.proc L j, links := k } := by
      refine ⟨fun q => ?_, rfl, rfl, rfl, rfl⟩
      obtain ⟨⟨x, hx⟩, -⟩ := hone q
      dsimp only
      rw [hx]
      exact .priority x
    refine ⟨t', by rw [promoteReady, h1, ok_bind, h2], hI', hr1.trans hr, fun q => ?_⟩
    obtain ⟨⟨x, hx⟩, hsame⟩ := hone q
    obtain ⟨⟨x', hx'⟩, hsame'⟩ := hproc q
    dsimp only at hx' hsame'
    refine ⟨⟨x', by rw [hx', hx]⟩, fun hq => ?_⟩
    rw [hsame' (by rwa [hsame hq]), hsame hq]

/-- The ready lists after the promotion of the scheduler. -/
def Lists.promoted (L : Lists) : Lists := (List.finRange MAX).foldl Lists.promote L

/-- The promotion of the scheduler, when its time has come. -/
theorem promotion_due (hL : ListInv t.proc t.links L) (hdue : t.promoteAtTime = t.ticks) :
    ∃ t', promotion t = .ok t' ∧ ListInv t'.proc t'.links L.promoted ∧
      Reprioritized { t with promoteAtTime := t.ticks + TICKS_TO_PROMOTE } t' := by
  obtain ⟨t1, h1, hL1, hr1⟩ := promotiononotherlists_spec (l := .sleep) nofun hL
  obtain ⟨t2, h2, hL2, hr2⟩ := promotiononotherlists_spec (l := .running) nofun hL1
  obtain ⟨t3, h3, hL3, hr3, -⟩ := promoteReady_spec (List.finRange MAX) hL2
  have hr := (hr1.trans hr2).trans hr3
  refine ⟨{ t3 with promoteAtTime := t3.ticks + TICKS_TO_PROMOTE }, ?_, hL3, hr.proc, ?_,
    hr.initproc, hr.nextpid, hr.ticks⟩
  · rw [promotion, if_pos hdue, h1, ok_bind, h2, ok_bind, h3, ok_bind]
    rfl
  · simp only [hr.ticks]

theorem promotion_early (h : t.promoteAtTime ≠ t.ticks) : promotion t = .ok t :=
  if_neg h

/-- The promotion of the scheduler changes priorities and its own deadline only. -/
theorem promotion_spec (h : t.Inv) :
    ∃ t', promotion t = .ok t' ∧ t'.Inv ∧ Reprioritized { t with promoteAtTime :=
      if t.promoteAtTime = t.ticks then t.ticks + TICKS_TO_PROMOTE else t.promoteAtTime } t' := by
  obtain ⟨L, hL⟩ := h
  rcases eq_or_ne t.promoteAtTime t.ticks with hdue | hdue
  · obtain ⟨t', heq, hL', hr⟩ := promotion_due hL hdue
    exact ⟨t', heq, ⟨_, hL'⟩, by rwa [if_pos hdue]⟩
  · exact ⟨t, promotion_early hdue, ⟨L, hL⟩, by rw [if_neg hdue]; exact .refl t⟩

/-- A dispatch takes the head of the ready list and makes it a running process. -/
theorem dispatch_spec (i : Fin (MAX + 1)) (h : t.Inv) :
    (t.links.head (.ready i) = none ∧ dispatch i t = .ok (none, t)) ∨
    ∃ p k L', t.links.head (.ready i) = some p ∧ (t.proc p).state = .runnable ∧
      (t.proc p).priority.toNat = i ∧
      ListInv (update t.proc p { t.proc p with state := .running, cpuTicksIn := t.ticks })
        k L' ∧
      dispatch i t = .ok (some p, { t with
        proc := update t.proc p { t.proc p with state := .running, cpuTicksIn := t.ticks }
        links := k }) := by
  obtain ⟨L, hL⟩ := h
  have hc := hL.chain (.ready i)
  cases hl : L (.ready i) with
  | nil =>
    rw [hl, chain_nil] at hc
    exact .inl ⟨hc, by simp only [dispatch, hc, pure_eq_ok]⟩
  | cons p xs =>
    rw [hl] at hc
    have hp : p ∈ L (.ready i) := by simp [hl]
    have hst : (t.proc p).state = .runnable := hL.state hp
    have hready : readyList (t.proc p).priority = .ok (.ready i) := by
      rw [readyList_eq (hL.bound p)]
      simp only [hL.priority hp]
    obtain ⟨k, hk, hw⟩ := hL.removeFront hl
    refine .inr ⟨p, _, _, hc.1, hst, hL.priority hp,
      hw.pushFront (l := .running) rfl (hL.bound p), ?_⟩
    simp only [dispatch, hc.1, hready, ok_bind, hk]
    rw [panicIf_neg (by decide), ok_bind, assertstate_ok (by exact hst)]
    simp [PTable.modProc]

end

end TronBoss
