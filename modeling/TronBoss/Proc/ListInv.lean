import TronBoss.Proc.Links
import TronBoss.Proc.Sections

/-!
# The process-list invariant of one table

`ListInv proc k L`: the links `k` store the lists `L`, and a slot is on exactly the list that its
`state` (and, for a runnable process, its `priority`) names. A section of `proc.c` that moves a
process takes it off its list (`ListInv.remove`, after which the lists store every slot but that
one, `Without`), changes its fields, and puts it on the list the new fields name
(`Without.pushFront`, `Without.pushBack`).
-/

namespace TronBoss

open Lib Function

/-- The list a process belongs on. A runnable process whose priority is out of range has none. -/
def Proc.list? (q : Proc) : Option ListId :=
  match q.state with
  | .unused => some .free
  | .embryo => some .embryo
  | .sleeping => some .sleep
  | .running => some .running
  | .zombie => some .zombie
  | .runnable => if h : q.priority.toNat < MAX + 1 then some (.ready ⟨_, h⟩) else none

/-- The state of the processes on a list. -/
def ListId.state : ListId → ProcState
  | .free => .unused
  | .embryo => .embryo
  | .sleep => .sleeping
  | .running => .running
  | .zombie => .zombie
  | .ready _ => .runnable

/-- Every slot is on the list that its fields name and on no other, and every priority is in
range. -/
structure ListInv (proc : Slot → Proc) (k : Links) (L : Lists) : Prop where
  chain : ∀ l, Chain k.next (k.head l) (L l)
  mem : ∀ l p, p ∈ L l ↔ (proc p).list? = some l
  bound : ∀ p, (proc p).priority.toNat ≤ MAX

/-- The links store the lists of every slot but `p`. -/
structure Without (proc : Slot → Proc) (p : Slot) (k : Links) (L : Lists) : Prop where
  holds : k.Holds L
  out : ∀ l, p ∉ L l
  mem : ∀ l q, q ≠ p → (q ∈ L l ↔ (proc q).list? = some l)
  bound : ∀ q, q ≠ p → (proc q).priority.toNat ≤ MAX

section
variable {proc : Slot → Proc} {k : Links} {L : Lists} {p : Slot} {l : ListId} {q : Proc}

/-- The list of a process names its state. -/
theorem Proc.state_of_list? (h : q.list? = some l) : q.state = l.state := by
  unfold Proc.list? at h
  split at h
  case h_6 hs =>
    split at h
    · cases h
      exact hs
    · cases h
  all_goals
    cases h
    assumption

/-- A list of a process that is not runnable is named by its state alone. -/
theorem Proc.list?_eq (h : q.state = l.state) (hl : l.state ≠ .runnable) : q.list? = some l := by
  unfold Proc.list?
  rw [h]
  cases l <;> first | rfl | exact absurd rfl hl

/-- A runnable process with a priority in range is on a ready list. -/
theorem Proc.list?_runnable (h : q.state = .runnable) (hb : q.priority.toNat ≤ MAX) :
    q.list? = some (.ready ⟨q.priority.toNat, Nat.lt_succ_of_le hb⟩) := by
  unfold Proc.list?
  rw [h]
  exact dif_pos (Nat.lt_succ_of_le hb)

/-- The ready list that `readyList` names is the one a runnable process belongs on. -/
theorem readyList_eq (hb : q.priority.toNat ≤ MAX) :
    readyList q.priority = .ok (.ready ⟨q.priority.toNat, Nat.lt_succ_of_le hb⟩) :=
  dif_pos (Nat.lt_succ_of_le hb)

/-- Only the state and the priority of a process decide on which list it is. -/
theorem Proc.list?_congr {q' : Proc} (hs : q'.state = q.state) (hp : q'.priority = q.priority) :
    q'.list? = q.list? := by
  unfold Proc.list?
  rw [hs, hp]

section
variable (h : ListInv proc k L)
include h

theorem ListInv.holds : k.Holds L :=
  ⟨h.chain, fun l l' p hl hl' => by
    have := (h.mem l p).1 hl
    rw [(h.mem l' p).1 hl'] at this
    exact (Option.some.inj this).symm⟩

/-- The state of a process on a list. -/
theorem ListInv.state (hp : p ∈ L l) : (proc p).state = l.state :=
  Proc.state_of_list? ((h.mem l p).1 hp)

/-- The priority of a process on a ready list is the index of the list. -/
theorem ListInv.priority {i : Fin (MAX + 1)} (hp : p ∈ L (.ready i)) :
    (proc p).priority.toNat = i := by
  have hr := Proc.list?_runnable (h.state hp) (h.bound p)
  rw [(h.mem _ p).1 hp] at hr
  injection hr with hr
  injection hr with hr
  rw [hr]

/-- Every slot is on some list. -/
theorem ListInv.exists_mem (p : Slot) : ∃ l, p ∈ L l := by
  cases hs : (proc p).state with
  | unused => exact ⟨.free, (h.mem _ p).2 (Proc.list?_eq hs nofun)⟩
  | embryo => exact ⟨.embryo, (h.mem _ p).2 (Proc.list?_eq hs nofun)⟩
  | sleeping => exact ⟨.sleep, (h.mem _ p).2 (Proc.list?_eq hs nofun)⟩
  | running => exact ⟨.running, (h.mem _ p).2 (Proc.list?_eq hs nofun)⟩
  | zombie => exact ⟨.zombie, (h.mem _ p).2 (Proc.list?_eq hs nofun)⟩
  | runnable => exact ⟨_, (h.mem _ p).2 (Proc.list?_runnable hs (h.bound p))⟩

/-- The invariant is kept by a change of fields that leaves every process on its list. -/
theorem ListInv.congr {proc' : Slot → Proc} (hl : ∀ p, (proc' p).list? = (proc p).list?)
    (hb : ∀ p, (proc' p).priority.toNat ≤ MAX) : ListInv proc' k L :=
  ⟨h.chain, fun l p => by rw [h.mem, hl], hb⟩

/-- A change of the fields of one process that leaves it on its list. -/
theorem ListInv.assign (hs : q.list? = (proc p).list?)
    (hb : q.priority.toNat ≤ MAX) : ListInv (update proc p q) k L := by
  refine h.congr (fun r => ?_) fun r => ?_
  · by_cases e : r = p
    · subst e
      rw [update_self, hs]
    · rw [update_of_ne e]
  · by_cases e : r = p
    · subst e
      rwa [update_self]
    · rw [update_of_ne e]
      exact h.bound r

/-- Taking a process off the list it is on. -/
theorem ListInv.without (hp : p ∈ L l) {k' : Links}
    (hk : k'.Holds (update L l ((L l).erase p))) :
    Without proc p k' (update L l ((L l).erase p)) := by
  have hnd : (L l).Nodup := (h.chain l).nodup
  refine ⟨hk, fun l' hp' => ?_, fun l' r hr => ?_, fun r _ => h.bound r⟩
  · by_cases e : l' = l
    · subst e
      rw [update_self] at hp'
      exact hnd.not_mem_erase hp'
    · rw [update_of_ne e] at hp'
      exact e (h.holds.disj l' l p hp' hp)
  · rw [← h.mem]
    by_cases e : l' = l
    · subst e
      rw [update_self, List.mem_erase_of_ne hr]
    · rw [update_of_ne e]

/-- `removefromlist` on the list of a process. -/
theorem ListInv.remove (hp : p ∈ L l) :
    ∃ k', removefromlist l (some p) k = .ok (0, k') ∧
      Without proc p k' (update L l ((L l).erase p)) := by
  obtain ⟨k', hk', hh⟩ := removefromlist_holds h.holds hp
  exact ⟨k', hk', h.without hp hh⟩

/-- `removefromfront` on a list that starts with a process. -/
theorem ListInv.removeFront {xs : List Slot} (hl : L l = p :: xs) :
    ∃ k', removefromfront l k = (0, k') ∧
      Without proc p k' (update L l ((L l).erase p)) := by
  obtain ⟨k', hk', hh⟩ := removefromfront_holds h.holds hl
  refine ⟨k', hk', h.without (by simp [hl]) ?_⟩
  rwa [hl, List.erase_cons_head]

end

/-- The lists with a process put back where its new fields say. -/
theorem Without.insert {k' : Links} {xs : List Slot} (h : Without proc p k L)
    (hq : q.list? = some l) (hb : q.priority.toNat ≤ MAX)
    (hk : k'.Holds (update L l xs)) (hxs : ∀ r, r ∈ xs ↔ r = p ∨ r ∈ L l) :
    ListInv (update proc p q) k' (update L l xs) := by
  refine ⟨hk.chain, fun l' r => ?_, fun r => ?_⟩
  · by_cases hr : r = p
    · subst hr
      rw [update_self, hq, Option.some_inj]
      by_cases e : l' = l
      · subst e
        rw [update_self, hxs]
        tauto
      · rw [update_of_ne e]
        have := h.out l'
        tauto
    · rw [update_of_ne hr, ← h.mem l' r hr]
      by_cases e : l' = l
      · subst e
        rw [update_self, hxs]
        tauto
      · rw [update_of_ne e]
  · by_cases hr : r = p
    · subst hr
      rwa [update_self]
    · rw [update_of_ne hr]
      exact h.bound r hr

/-- `addtofrontoflist` of a process that is on no list. -/
theorem Without.pushFront (h : Without proc p k L) (hq : q.list? = some l)
    (hb : q.priority.toNat ≤ MAX) :
    ListInv (update proc p q) (addtofrontoflist l (some p) k)
      (update L l (p :: L l)) :=
  h.insert hq hb (addtofrontoflist_holds h.holds h.out) fun _ => List.mem_cons

/-- `addtoreadyprioritylist` of a process that is on no list. -/
theorem Without.pushBack (h : Without proc p k L) (hq : q.list? = some l)
    (hb : q.priority.toNat ≤ MAX) :
    ∃ k', addtoreadyprioritylist l (some p) k = .ok (0, k') ∧
      ListInv (update proc p q) k' (update L l (L l ++ [p])) := by
  obtain ⟨k', hk', hh⟩ := addtoreadyprioritylist_holds h.holds h.out
  refine ⟨k', hk', h.insert hq hb hh fun r => ?_⟩
  rw [List.mem_append, List.mem_singleton, or_comm]

end

end TronBoss
