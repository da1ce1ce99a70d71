import Mathlib.Data.List.Nodup
import TronBoss.Lib.Outcome

/-!
# Circular doubly linked lists

Nodes with a `next` and a `prev` field, on a ring through a node that is not an element, the head.
`Links.Ring l h xs` says that following `next` from the head `h` visits the nodes `xs` and then
meets the head again, and that `prev` is the way back. `Links.remove` and `Links.pushFront` are the
pointer writes that take a node out of the ring and put one behind the head; both work at the ends
of the list and on a list of one node, where some of the pointers written belong to the head.
-/

namespace Lib

open Function List

variable {α : Type*}

/-- The fields of the nodes. -/
structure Links (α : Type*) where
  next : α → α
  prev : α → α

/-- From `a` on, the nodes `xs` follow, and then `z`. -/
def Links.Path (l : Links α) : α → List α → α → Prop
  | a, [], z => l.next a = z ∧ l.prev z = a
  | a, x :: xs, z => l.next a = x ∧ l.prev x = a ∧ l.Path x xs z

/-- The ring through the head `h` has the nodes `xs`. -/
structure Links.Ring (l : Links α) (h : α) (xs : List α) : Prop where
  path : l.Path h xs h
  nodup : (h :: xs).Nodup

/-- The fields seen from the other end. -/
def Links.swap (l : Links α) : Links α where
  next := l.prev
  prev := l.next

section
variable {l l' : Links α} {a b h z : α} {xs us ws : List α}

/-- A path reads `next` at its nodes but the last, and `prev` at its nodes but the first. -/
theorem Links.Path.congr (hp : l.Path a xs z) (hn : ∀ x ∈ a :: xs, l'.next x = l.next x)
    (hv : ∀ x ∈ xs ++ [z], l'.prev x = l.prev x) : l'.Path a xs z := by
  induction xs generalizing a with
  | nil => exact ⟨(hn a (by simp)).trans hp.1, (hv z (by simp)).trans hp.2⟩
  | cons x xs ih =>
    refine ⟨(hn a (by simp)).trans hp.1, (hv x (by simp)).trans hp.2.1, ih hp.2.2 ?_ ?_⟩
    · exact fun y hy => hn y (mem_cons_of_mem a hy)
    · exact fun y hy => hv y (mem_cons_of_mem x hy)

/-- A path through a node. -/
theorem Links.path_append :
    l.Path a (us ++ b :: ws) z ↔ l.Path a us b ∧ l.Path b ws z := by
  induction us generalizing a with
  | nil => exact and_assoc.symm
  | cons u us ih =>
    change l.next a = u ∧ l.prev u = a ∧ l.Path u (us ++ b :: ws) z ↔
      (l.next a = u ∧ l.prev u = a ∧ l.Path u us b) ∧ l.Path b ws z
    rw [ih, and_assoc, and_assoc]

/-- The way back. -/
theorem Links.Path.swap (hp : l.Path a xs z) : l.swap.Path z xs.reverse a := by
  induction xs generalizing a with
  | nil => exact ⟨hp.2, hp.1⟩
  | cons x xs ih =>
    rw [reverse_cons]
    exact path_append.2 ⟨ih hp.2.2, hp.2.1, hp.1⟩

/-- What follows the first node is on the path. -/
theorem Links.Path.next_mem (hp : l.Path a xs z) : l.next a ∈ xs ++ [z] := by
  cases xs with
  | nil => simpa using hp.1
  | cons x xs => simp [hp.1]

/-- What comes before the last node is on the path. -/
theorem Links.Path.prev_mem (hp : l.Path a xs z) : l.prev z ∈ a :: xs := by
  have hmem := hp.swap.next_mem
  rw [mem_append, mem_reverse, mem_singleton] at hmem
  exact mem_cons.2 hmem.symm

/-- The ring without an element. -/
theorem Links.ring_nil (hn : l.next h = h) (hv : l.prev h = h) : l.Ring h [] :=
  ⟨⟨hn, hv⟩, nodup_singleton h⟩

theorem Links.Ring.swap (hr : l.Ring h xs) : l.swap.Ring h xs.reverse := by
  refine ⟨hr.path.swap, ?_⟩
  have hnd := nodup_cons.1 hr.nodup
  exact nodup_cons.2 ⟨fun hc => hnd.1 (mem_reverse.1 hc), nodup_reverse.2 hnd.2⟩

/-! ## Writing the fields -/

variable [DecidableEq α]

/-- `a->next = b`. -/
def Links.setNext (l : Links α) (a b : α) : Links α := { l with next := update l.next a b }

/-- `a->prev = b`. -/
def Links.setPrev (l : Links α) (a b : α) : Links α := { l with prev := update l.prev a b }

/-- `b->next->prev = b->prev; b->prev->next = b->next`. -/
def Links.remove (l : Links α) (b : α) : Links α :=
  let l := l.setPrev (l.next b) (l.prev b)
  l.setNext (l.prev b) (l.next b)

/-- `b->next = h->next; b->prev = h; h->next->prev = b; h->next = b`. -/
def Links.pushFront (l : Links α) (h b : α) : Links α :=
  let l := l.setNext b (l.next h)
  let l := l.setPrev b h
  let l := l.setPrev (l.next h) b
  l.setNext h b

/-- The path that leaves out a node. -/
theorem Links.Path.bypass (hu : l.Path a us b) (hw : l.Path b ws z) (hus : (a :: us).Nodup)
    (hws : (ws ++ [z]).Nodup) (hdis : ∀ x ∈ us, x ∉ ws ++ [z]) (hdis' : ∀ x ∈ a :: us, x ∉ ws)
    (hn : l'.next = update l.next (l.prev b) (l.next b))
    (hv : l'.prev = update l.prev (l.next b) (l.prev b)) : l'.Path a (us ++ ws) z := by
  have hnext := hw.next_mem
  induction us generalizing a with
  | nil =>
    obtain ⟨-, rfl⟩ := hu
    cases ws with
    | nil =>
      obtain ⟨rfl, -⟩ := hw
      refine ⟨?_, ?_⟩
      · rw [hn, update_self]
      · rw [hv, update_self]
    | cons w ws =>
      obtain ⟨rfl, -, hw⟩ := hw
      refine ⟨?_, ?_, hw.congr (fun x hx => ?_) fun x hx => ?_⟩
      · rw [hn, update_self]
      · rw [hv, update_self]
      · rw [hn, update_of_ne]
        rintro rfl
        exact hdis' _ (by simp) hx
      · rw [hv, update_of_ne]
        rintro rfl
        exact (nodup_cons.1 hws).1 hx
  | cons u us ih =>
    obtain ⟨rfl, hback, hu⟩ := hu
    have hnd := nodup_cons.1 hus
    refine ⟨?_, ?_, ih hu hnd.2 (fun x hx => hdis x (mem_cons_of_mem _ hx))
      fun x hx => hdis' x (mem_cons_of_mem _ hx)⟩
    · rw [hn, update_of_ne]
      rintro rfl
      exact hnd.1 hu.prev_mem
    · rw [hv, update_of_ne, hback]
      intro hc
      exact hdis _ (by simp) (hc ▸ hnext)

/-- Taking a node out. -/
theorem Links.Ring.remove (hr : l.Ring h (us ++ b :: ws)) : (l.remove b).Ring h (us ++ ws) := by
  obtain ⟨hu, hw⟩ := path_append.1 hr.path
  have hnd := hr.nodup
  have hsub : (h :: (us ++ ws)).Nodup :=
    hnd.sublist (((sublist_cons_self b ws).append_left us).cons_cons h)
  have hbne : l.next b ≠ b := by
    intro hc
    have hmem := hw.next_mem
    rw [hc] at hmem
    grind
  refine ⟨hu.bypass hw ?_ ?_ ?_ ?_ ?_ ?_, hsub⟩
  · exact hsub.sublist ((sublist_append_left us ws).cons_cons h)
  · grind
  · grind
  · grind
  · simp [Links.remove, setNext, setPrev, update_of_ne hbne.symm]
  · simp [Links.remove, setNext, setPrev]

/-- Putting a node behind the head. -/
theorem Links.Ring.pushFront (hr : l.Ring h xs) (hb : b ∉ h :: xs) :
    (l.pushFront h b).Ring h (b :: xs) := by
  obtain ⟨hbh, hbxs⟩ := ne_and_not_mem_of_not_mem_cons hb
  have hnd := nodup_cons.1 hr.nodup
  have hn : (l.pushFront h b).next = update (update l.next b (l.next h)) h b := by
    simp [Links.pushFront, setNext, setPrev, update_of_ne (Ne.symm hbh)]
  have hv : (l.pushFront h b).prev = update (update l.prev b h) (l.next h) b := by
    simp [Links.pushFront, setNext, setPrev, update_of_ne (Ne.symm hbh)]
  have hne : b ≠ l.next h := by
    rintro rfl
    simpa [or_comm, hbh, hbxs] using hr.path.next_mem
  refine ⟨⟨?_, ?_, ?_⟩, by grind⟩
  · rw [hn, update_self]
  · rw [hv, update_of_ne hne, update_self]
  · have hp := hr.path
    cases xs with
    | nil =>
      refine ⟨?_, ?_⟩
      · rw [hn, update_of_ne hbh, update_self, hp.1]
      · rw [hv, hp.1, update_self]
    | cons x xs =>
      obtain ⟨rfl, -, hp⟩ := hp
      refine ⟨?_, ?_, hp.congr (fun y hy => ?_) fun y hy => ?_⟩
      · rw [hn, update_of_ne hbh, update_self]
      · rw [hv, update_self]
      · rw [hn, update_of_ne (by grind), update_of_ne (by grind)]
      · rw [hv, update_of_ne (by grind), update_of_ne (by grind)]

/-- Nodes put behind the head one after the other stand in the opposite order. -/
theorem Links.Ring.foldl_pushFront (hr : l.Ring h xs) (hnd : (ws ++ h :: xs).Nodup) :
    (ws.foldl (fun l b => l.pushFront h b) l).Ring h (ws.reverse ++ xs) := by
  induction ws generalizing l xs with
  | nil => exact hr
  | cons w ws ih =>
    rw [foldl_cons, reverse_cons, append_assoc]
    exact ih (hr.pushFront (by grind)) (by grind)

end

/-! ## Searching the ring -/

section
variable [DecidableEq α] {l : Links α} {a h z : α} {xs : List α} {p : α → Bool} {fuel : Nat}

/-- `for (; b != h; b = step(b)) if (p(b)) return b;`, for at most `fuel` turns. -/
def findRing (step : α → α) (h : α) (p : α → Bool) : Nat → α → Except Stop (Option α)
  | 0, _ => .error .diverge
  | fuel + 1, b =>
    if b = h then .ok none else if p b then .ok (some b) else findRing step h p fuel (step b)

/-- The scan of a ring from behind `a` sees the nodes up to `z`. -/
theorem Links.Path.findRing_next (hp : l.Path a xs z) (hz : z ∉ xs) (hf : xs.length < fuel) :
    findRing l.next z p fuel (l.next a) = .ok (xs.find? p) := by
  induction xs generalizing a fuel with
  | nil =>
    obtain ⟨fuel, rfl⟩ := Nat.exists_eq_succ_of_ne_zero (Nat.ne_of_gt hf)
    rw [findRing, if_pos hp.1, find?_nil]
  | cons x xs ih =>
    obtain ⟨fuel, rfl⟩ := Nat.exists_eq_succ_of_ne_zero (by omega : fuel ≠ 0)
    obtain ⟨rfl, -, hp⟩ := hp
    obtain ⟨hne, hz⟩ := ne_and_not_mem_of_not_mem_cons hz
    rw [findRing, if_neg (Ne.symm hne), find?_cons]
    split
    · next hq => rw [hq]
    · next hq =>
      rw [Bool.eq_false_iff.2 hq]
      exact ih hp hz (by simpa using hf)

/-- The search from the first node on. -/
theorem Links.Ring.findRing_next (hr : l.Ring h xs) (hf : xs.length < fuel) :
    findRing l.next h p fuel (l.next h) = .ok (xs.find? p) :=
  hr.path.findRing_next (nodup_cons.1 hr.nodup).1 hf

/-- The search from the last node back. -/
theorem Links.Ring.findRing_prev (hr : l.Ring h xs) (hf : xs.length < fuel) :
    findRing l.prev h p fuel (l.prev h) = .ok (xs.reverse.find? p) :=
  hr.swap.findRing_next (by simpa using hf)

end

end Lib
