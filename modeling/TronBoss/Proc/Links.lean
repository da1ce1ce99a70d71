import TronBoss.Proc.Table
import Mathlib.Data.Fintype.Card

/-!
# What the list routines do to the lists

`Links.Holds k L` says that the links `k` store the lists `L`, one list of slots for every head,
with no slot on two lists. Each routine of `proc.c` that splices a list has one lemma here, which
says that it returns `0` and which lists its links store afterwards; no later proof unfolds a
routine. The loops end within `listFuel` turns because a list without repetition has at most
`NPROC` slots.
-/

namespace TronBoss

open Lib Function List

/-- The contents of the state lists. -/
abbrev Lists := ListId → List Slot

/-- The links `k` store the lists `L`, and these are disjoint. -/
structure Links.Holds (k : Links) (L : Lists) : Prop where
  chain : ∀ l, Chain k.next (k.head l) (L l)
  disj : ∀ l l' p, p ∈ L l → p ∈ L l' → l = l'

section
variable {k : Links} {L : Lists} {l : ListId} {p : Slot} {xs : List Slot}

@[simp] theorem Links.setHead_head (k : Links) (l : ListId) (q : Option Slot) :
    (k.setHead l q).head = update k.head l q := rfl

@[simp] theorem Links.setHead_next (k : Links) (l : ListId) (q : Option Slot) :
    (k.setHead l q).next = k.next := rfl

@[simp] theorem Links.setNext_head (k : Links) (p : Slot) (q : Option Slot) :
    (k.setNext p q).head = k.head := rfl

@[simp] theorem Links.setNext_next (k : Links) (p : Slot) (q : Option Slot) :
    (k.setNext p q).next = update k.next p q := rfl

section
variable (hk : k.Holds L)
include hk

/-- A stored list is short enough for the loops over it. -/
theorem Links.Holds.length_lt (l : ListId) : (L l).length < listFuel := by
  have := (hk.chain l).nodup.length_le_card
  rw [Fintype.card_fin] at this
  exact Nat.lt_succ_of_le this

/-- Replacing the list of one head: its own chain is given, and the chains of the other heads are
kept because their slots keep their links. -/
theorem Links.Holds.replace {k' : Links} (hl : Chain k'.next (k'.head l) xs)
    (hhead : ∀ l', l' ≠ l → k'.head l' = k.head l')
    (hnext : ∀ l', l' ≠ l → ∀ q ∈ L l', k'.next q = k.next q)
    (hxs : ∀ q ∈ xs, ∀ l', l' ≠ l → q ∉ L l') :
    k'.Holds (update L l xs) := by
  constructor
  · intro l'
    by_cases e : l' = l
    · subst e
      rwa [update_self]
    · rw [update_of_ne e, hhead l' e]
      exact (hk.chain l').congr (hnext l' e)
  · intro l1 l2 q h1 h2
    by_cases e1 : l1 = l
    · subst e1
      by_cases e2 : l2 = l1
      · exact e2.symm
      · rw [update_self] at h1
        rw [update_of_ne e2] at h2
        exact absurd h2 (hxs q h1 l2 e2)
    · rw [update_of_ne e1] at h1
      by_cases e2 : l2 = l
      · subst e2
        rw [update_self] at h2
        exact absurd h1 (hxs q h2 l1 e1)
      · rw [update_of_ne e2] at h2
        exact hk.disj l1 l2 q h1 h2

/-- A slot of one stored list is on no other. -/
theorem Links.Holds.not_mem (hp : p ∈ L l) :
    ∀ l', l' ≠ l → p ∉ L l' :=
  fun l' hl' hp' => hl' (hk.disj l' l p hp' hp)

/-- `addtofrontoflist` puts a slot that is on no list in front of one. -/
theorem addtofrontoflist_holds (hp : ∀ l', p ∉ L l') :
    (addtofrontoflist l (some p) k).Holds (update L l (p :: L l)) := by
  refine hk.replace ?_ ?_ ?_ ?_
  · simpa [addtofrontoflist] using (hk.chain l).push (hp l)
  · intro l' hl'
    simp [addtofrontoflist, update_of_ne hl']
  · intro l' hl' q hq
    simp [addtofrontoflist, update_of_ne (ne_of_mem_of_not_mem hq (hp l'))]
  · intro q hq l' hl'
    rcases mem_cons.1 hq with rfl | hq
    · exact hp l'
    · exact hk.not_mem hq l' hl'

/-- The first slot of a list is unlinked. -/
theorem Links.Holds.pop (hl : L l = p :: xs) :
    ((k.setHead l (k.next p)).setNext p none).Holds (update L l xs) := by
  have hc := hk.chain l
  rw [hl] at hc
  have hnd := hc.nodup
  rw [nodup_cons] at hnd
  refine hk.replace ?_ ?_ ?_ ?_
  · simp only [Links.setNext_head, Links.setHead_head, update_self, Links.setNext_next,
      Links.setHead_next]
    exact hc.2.congr fun q hq => update_of_ne (ne_of_mem_of_not_mem hq hnd.1) ..
  · intro l' hl'
    simp [update_of_ne hl']
  · intro l' hl' q hq
    have hqp : q ≠ p := ne_of_mem_of_not_mem hq (hk.not_mem (by simp [hl]) l' hl')
    simp [update_of_ne hqp]
  · intro q hq
    exact hk.not_mem (by simp [hl, hq])

/-- `removefromfront` takes the first slot off a list. -/
theorem removefromfront_holds (hl : L l = p :: xs) :
    ∃ k', removefromfront l k = (0, k') ∧ k'.Holds (update L l xs) := by
  have hc := hk.chain l
  rw [hl] at hc
  exact ⟨_, by simp only [removefromfront, hc.1], hk.pop hl⟩

end

/-- The loop of `removefromlist` unlinks the slot it looks for from its predecessor. -/
theorem removefromlistLoop_chain {fuel : Nat} {previous : Slot} {zs ys : List Slot}
    (hc : Chain k.next (k.next previous) (zs ++ p :: ys)) (hp : p ∉ zs) (hf : zs.length < fuel) :
    removefromlistLoop p k fuel previous (k.next previous) =
      some (0, (k.setNext ((previous :: zs).getLast (by simp)) (k.next p)).setNext p none) := by
  induction zs generalizing fuel previous with
  | nil =>
    obtain ⟨fuel, rfl⟩ := Nat.exists_eq_succ_of_ne_zero (Nat.ne_of_gt hf)
    rw [hc.1, removefromlistLoop, if_pos rfl]
    rfl
  | cons z zs ih =>
    obtain ⟨fuel, rfl⟩ := Nat.exists_eq_succ_of_ne_zero (by omega : fuel ≠ 0)
    rw [mem_cons, not_or] at hp
    rw [hc.1, removefromlistLoop, if_neg (Ne.symm hp.1), getLast_cons (by simp)]
    exact ih hc.2 hp.2 (by simpa using hf)

/-- `removefromlist` takes a slot off the list it is on. -/
theorem removefromlist_holds (hk : k.Holds L) (hp : p ∈ L l) :
    ∃ k', removefromlist l (some p) k = .ok (0, k') ∧
      k'.Holds (update L l ((L l).erase p)) := by
  obtain ⟨xs, ys, hl, hxs⟩ := eq_append_cons_of_mem hp
  have hc := hk.chain l
  rw [hl] at hc
  have herase : (L l).erase p = xs ++ ys := by
    rw [hl, erase_append_right _ hxs, erase_cons_head]
  have hother : ∀ q ∈ xs ++ ys, ∀ l', l' ≠ l → q ∉ L l' := by
    intro q hq
    refine hk.not_mem ?_
    rw [hl]
    simp only [mem_append, mem_cons] at hq ⊢
    tauto
  have hpl' : ∀ l', l' ≠ l → p ∉ L l' := hk.not_mem hp
  rw [herase]
  cases xs with
  | nil =>
    -- `p` is the head of the list
    exact ⟨_, by simp only [removefromlist, hc.1, if_pos], hk.pop hl⟩
  | cons x zs =>
    -- the loop stops at the predecessor `y` of `p`
    obtain ⟨as, y, hy⟩ : ∃ as y, x :: zs = as ++ [y] :=
      ⟨_, _, (dropLast_append_getLast (by simp)).symm⟩
    have hxp : x ≠ p := fun e => hxs (by simp [e])
    have hf : zs.length < listFuel := by
      have := hk.length_lt l
      rw [hl] at this
      simp only [length_append, length_cons] at this
      omega
    have hlast : (x :: zs).getLast (by simp) = y := by
      simp only [hy, getLast_append_singleton]
    refine ⟨(k.setNext y (k.next p)).setNext p none, ?_, hk.replace ?_ ?_ ?_ hother⟩
    · simp only [removefromlist, hc.1, if_neg hxp]
      rw [removefromlistLoop_chain hc.2 (fun h => hxs (by simp [h])) hf, hlast]
      rfl
    · rw [hy] at hc ⊢
      rw [append_assoc, singleton_append] at hc ⊢
      simpa using hc.unlink
    · intro l' hl'
      simp
    · intro l' hl' q hq
      have hyl : y ∈ L l := by
        rw [hl, hy]
        simp
      have hqy : q ≠ y := ne_of_mem_of_not_mem hq (hk.not_mem hyl l' hl')
      have hqp : q ≠ p := ne_of_mem_of_not_mem hq (hpl' l' hl')
      simp [update_of_ne hqp, update_of_ne hqy]

/-- `addtoreadyprioritylist` puts a slot that is on no list behind one. -/
theorem addtoreadyprioritylist_holds (hk : k.Holds L) (hp : ∀ l', p ∉ L l') :
    ∃ k', addtoreadyprioritylist l (some p) k = .ok (0, k') ∧
      k'.Holds (update L l (L l ++ [p])) := by
  have hother : ∀ q ∈ L l ++ [p], ∀ l', l' ≠ l → q ∉ L l' := by
    intro q hq
    rcases mem_append.1 hq with hq | hq
    · exact hk.not_mem hq
    · rw [mem_singleton.1 hq]
      exact fun l' _ => hp l'
  have hc := hk.chain l
  cases hl : L l with
  | nil =>
    rw [hl] at hc hother
    refine ⟨(k.setNext p none).setHead l (some p),
      by simp only [addtoreadyprioritylist, chain_nil.1 hc], hk.replace ?_ ?_ ?_ hother⟩
    · simp
    · intro l' hl'
      simp [update_of_ne hl']
    · intro l' hl' q hq
      simp [update_of_ne (ne_of_mem_of_not_mem hq (hp l'))]
  | cons x xs =>
    obtain ⟨as, y, hy⟩ : ∃ as y, x :: xs = as ++ [y] :=
      ⟨_, _, (dropLast_append_getLast (by simp)).symm⟩
    have hyl : y ∈ L l := by
      rw [hl, hy]
      simp
    have hf : xs.length < listFuel := by
      have := hk.length_lt l
      rw [hl, length_cons] at this
      omega
    rw [hl] at hc hother
    have hlast : lastNode k.next listFuel x = some y := by
      rw [lastNode_chain ⟨rfl, hc.2⟩ hf]
      simp only [hy, getLast_append_singleton]
    have hpy : p ≠ y := fun e => hp l (e ▸ hyl)
    refine ⟨(k.setNext y (some p)).setNext p none, ?_, hk.replace ?_ ?_ ?_ hother⟩
    · simp only [addtoreadyprioritylist, hc.1, hlast, terminating_some, ok_bind, pure_eq_ok]
    · rw [hy] at hc ⊢
      rw [append_assoc, singleton_append]
      have hnd := hc.nodup
      refine hc.append ?_ ?_
      · simp [update_of_ne (Ne.symm hpy)]
      · intro z hz
        have hzy : z ≠ y := by
          rintro rfl
          rw [nodup_append] at hnd
          exact hnd.2.2 z hz z (by simp) rfl
        have hzp : z ≠ p := by
          rintro rfl
          exact hp l (by rw [hl, hy]; simp [hz])
        simp [update_of_ne hzp, update_of_ne hzy]
    · intro l' hl'
      simp
    · intro l' hl' q hq
      have hqp : q ≠ p := ne_of_mem_of_not_mem hq (hp l')
      have hqy : q ≠ y := ne_of_mem_of_not_mem hq (hk.not_mem hyl l' hl')
      simp [update_of_ne hqp, update_of_ne hqy]

end

end TronBoss
