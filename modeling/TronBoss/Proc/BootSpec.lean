import TronBoss.Proc.SectionSpec

/-!
# `userinit` establishes the process-list invariant

The first section of `userinit` empties the lists and pushes every slot on the free list; then
`allocproc` makes one of them the first process, which the last section puts on `ready[0]` by hand.
That assignment loses no process, because `ready[0]` is still empty.
-/

namespace TronBoss

open Lib Function List

/-- The lists with the slots `xs` free and all others empty. -/
def Lists.onlyFree (xs : List Slot) : Lists := update (fun _ => []) .free xs

/-- Pushing slots on the free list one after the other. -/
theorem foldl_addtofrontoflist : ∀ (xs : List Slot) {ys : List Slot} {k : Links},
    k.Holds (.onlyFree ys) → (xs ++ ys).Nodup →
    (xs.foldl (fun k p => addtofrontoflist .free (some p) k) k).Holds (.onlyFree (xs.reverse ++ ys))
  | [], _, _, hk, _ => hk
  | x :: xs, ys, k, hk, hnd => by
    rw [List.cons_append, List.nodup_cons] at hnd
    have hx : ∀ l, x ∉ Lists.onlyFree ys l := by
      intro l
      by_cases e : l = .free
      · subst e
        simp only [Lists.onlyFree, update_self]
        exact fun h => hnd.1 (mem_append_right _ h)
      · simp [Lists.onlyFree, update_of_ne e]
    have hk' : (addtofrontoflist .free (some x) k).Holds (.onlyFree (x :: ys)) := by
      simpa [Lists.onlyFree] using addtofrontoflist_holds (l := .free) hk hx
    have hnd' : (xs ++ x :: ys).Nodup := nodup_middle.2 (nodup_cons.2 hnd)
    have := foldl_addtofrontoflist xs hk' hnd'
    rwa [foldl_cons, reverse_cons, append_assoc, singleton_append]

/-- After its first section every slot is free. -/
theorem userinitLists_inv :
    ListInv (userinitLists .zero).proc (userinitLists .zero).links
      (.onlyFree (List.finRange NPROC).reverse) := by
  have h0 : Links.Holds { head := fun _ => none, next := fun _ => none } (.onlyFree []) := by
    have hnil : Lists.onlyFree [] = fun _ => [] := update_eq_self _ _
    rw [hnil]
    exact ⟨fun _ => rfl, fun _ _ _ h => absurd h (by simp)⟩
  have hk := foldl_addtofrontoflist (List.finRange NPROC) h0
    (by simpa using nodup_finRange NPROC)
  rw [append_nil] at hk
  refine ⟨hk.chain, fun l p => ?_, fun _ => Nat.zero_le _⟩
  have hp : ((userinitLists .zero).proc p).list? = some .free := rfl
  rw [hp, Option.some_inj]
  by_cases e : l = .free
  · subst e
    simp [Lists.onlyFree]
  · simp only [Lists.onlyFree, update_of_ne e, not_mem_nil, false_iff]
    exact Ne.symm e

/-- The last section of `userinit`, when `ready[0]` is empty. -/
theorem userinitReady_spec {t : PTable} {L : Lists} {p : Slot} (hL : ListInv t.proc t.links L)
    (hp : (t.proc p).state = .embryo) (h0 : (t.proc p).priority = 0) (hr : L (.ready 0) = []) :
    ∃ t', userinitReady p t = .ok t' ∧ t'.Inv := by
  obtain ⟨k, hk, hw⟩ := hL.remove (hL.mem_of_state (l := .embryo) hp nofun)
  have hlist : Proc.list? { t.proc p with state := .runnable } = some (.ready 0) := by
    have hb : ({ t.proc p with state := .runnable } : Proc).priority.toNat ≤ MAX := hL.bound p
    rw [Proc.list?_runnable rfl hb]
    simp only [h0]
    rfl
  obtain ⟨k', hk', hI⟩ := hw.pushBack hlist (hL.bound p)
  -- the assignment to `ready[0]` is what `addtoreadyprioritylist` does on an empty list
  have hhead : k.head (.ready 0) = none := by
    have hc := hw.holds.chain (.ready 0)
    rwa [update_of_ne (by simp), hr, chain_nil] at hc
  have hk'' : k' = (k.setNext p none).setHead (.ready 0) (some p) := by
    simp only [addtoreadyprioritylist, hhead, Except.ok.injEq, Prod.mk.injEq, true_and] at hk'
    exact hk'.symm
  refine ⟨{ t with
    promoteAtTime := TICKS_TO_PROMOTE
    proc := update t.proc p { t.proc p with state := .runnable }
    links := k' }, ?_, ⟨_, hI⟩⟩
  simp only [userinitReady, hk, ok_bind]
  rw [panicIf_neg (by decide), ok_bind, assertstate_ok (by exact hp), hk'']
  rfl

/-- A list is empty when no process has its state. -/
theorem ListInv.eq_nil {proc : Slot → Proc} {k : Links} {L : Lists} {l : ListId}
    (h : ListInv proc k L) (hs : ∀ p, (proc p).state ≠ l.state) : L l = [] :=
  eq_nil_iff_forall_not_mem.2 fun p hp => hs p (h.state hp)

/-- `userinit` returns, and its table satisfies the invariant. -/
theorem userinit_spec : ∃ t, userinit .zero = .ok t ∧ t.Inv := by
  have hunused : ∀ q, ((userinitLists .zero).proc q).state = .unused := fun _ => rfl
  rcases allocprocTake_spec userinitLists_inv with ⟨-, h⟩ | ⟨np, k, L, -, hL, heq⟩
  · exact absurd (hunused ⟨0, by decide⟩) (h _)
  set t0 := userinitLists .zero with ht0
  let q : Proc := { t0.proc np with
    state := .embryo, pid := t0.nextpid, startTicks := t0.ticks, cpuTicksTotal := 0,
    cpuTicksIn := 0, budget := DEFAULT_BUDGET, priority := DEFAULT_PRIORITY, sz := 4096,
    uid := 0, gid := 0 }
  have hq : ListInv (update t0.proc np q) k L := by
    have h := hL.modify (p := np) (q := q) (by rw [update_self]) (by
      rw [update_self]
      rfl)
    rwa [update_idem] at h
  have hr : L (.ready 0) = [] := by
    refine hq.eq_nil fun p hp => ?_
    by_cases e : p = np
    · rw [e, update_self] at hp
      cases hp
    · rw [update_of_ne e, hunused] at hp
      cases hp
  obtain ⟨t, ht, hI⟩ := userinitReady_spec (p := np)
    (t := { t0 with proc := update t0.proc np q, links := k, nextpid := t0.nextpid + 1,
                    initproc := some np }) hq (by simp [q]) (by simp [q, DEFAULT_PRIORITY]) hr
  refine ⟨t, ?_, hI⟩
  rw [userinit, ← ht0, heq, ok_bind]
  simp only [allocprocInit, PTable.modProc, update_self, update_idem]
  exact ht

/-- The table that `userinit` leaves. -/
def booted : PTable := (userinit .zero).toOption.getD .zero

theorem userinit_eq : userinit .zero = .ok booted := by
  obtain ⟨t, ht, -⟩ := userinit_spec
  rw [booted, ht]
  rfl

theorem booted_inv : booted.Inv := by
  obtain ⟨t, ht, hI⟩ := userinit_spec
  rw [userinit_eq] at ht
  cases ht
  exact hI

/-- The slot of the first process: the last one, which is the first of the free list. -/
def initSlot : Slot := ⟨63, by decide⟩

/-- The slot of its first child. -/
def childSlot : Slot := ⟨62, by decide⟩

/-- The slot of its second child. -/
def secondSlot : Slot := ⟨61, by decide⟩

/-- Every other slot is as in the zeroed memory. -/
theorem booted_proc : ∀ q, booted.proc q = if q = initSlot then
    { Proc.zero with state := .runnable, pid := 1, sz := 4096, budget := DEFAULT_BUDGET }
    else .zero := by
  decide +kernel

end TronBoss
