import Mathlib.Data.List.Nodup

/-!
# Singly linked lists through a shared `next` field

Several list heads and one `next` field stored in the nodes themselves: a node is on the list of a
head when following `next` from that head reaches it. `Chain next h xs` says that the walk from `h`
visits exactly the nodes `xs` and then meets the null pointer, so a list that has a chain is
null-terminated, and it is acyclic as well (`Chain.nodup`). The three loops a program runs over
such a list (search, walk to the tail, update of every node) are defined with a bound on the number
of turns, and each has one lemma that computes it on a chain.
-/

namespace Lib

open Function List

variable {α σ : Type*}

/-- Following `next` from the pointer `h` visits the nodes `xs`, in order, and ends in null. -/
def Chain (next : α → Option α) : Option α → List α → Prop
  | h, [] => h = none
  | h, x :: xs => h = some x ∧ Chain next (next x) xs

section Chain
variable {next next' : α → Option α} {h : Option α} {x y : α} {xs ys : List α}

@[simp] theorem chain_nil : Chain next h [] ↔ h = none := Iff.rfl

@[simp] theorem chain_cons : Chain next h (x :: xs) ↔ h = some x ∧ Chain next (next x) xs := Iff.rfl

/-- The head pointer of a chain points to its first node. -/
theorem Chain.head_eq (hc : Chain next h xs) : h = xs.head? := by
  cases xs with
  | nil => exact hc
  | cons x xs => exact hc.1

/-- The walk from a pointer is unique. -/
theorem Chain.unique (hc : Chain next h xs) (hc' : Chain next h ys) : xs = ys := by
  induction xs generalizing h ys with
  | nil => cases ys with
    | nil => rfl
    | cons y ys => exact nomatch hc.symm.trans hc'.1
  | cons x xs ih => cases ys with
    | nil => exact nomatch hc.1.symm.trans hc'
    | cons y ys =>
      obtain rfl : x = y := Option.some.inj (hc.1.symm.trans hc'.1)
      rw [ih hc.2 hc'.2]

/-- A chain reads `next` only at its own nodes. -/
theorem Chain.congr (hc : Chain next h xs) (hn : ∀ x ∈ xs, next' x = next x) :
    Chain next' h xs := by
  induction xs generalizing h with
  | nil => exact hc
  | cons x xs ih =>
    refine ⟨hc.1, ?_⟩
    rw [hn x (by simp)]
    exact ih hc.2 fun y hy => hn y (by simp [hy])

/-- The nodes from some node of a chain on form the chain of that node. -/
theorem Chain.drop (hc : Chain next h (xs ++ x :: ys)) : Chain next (some x) (x :: ys) := by
  induction xs generalizing h with
  | nil => exact ⟨rfl, hc.2⟩
  | cons z xs ih => exact ih hc.2

/-- A chain visits no node twice, because the walk from a node is unique. -/
theorem Chain.nodup (hc : Chain next h xs) : xs.Nodup := by
  induction xs generalizing h with
  | nil => exact .nil
  | cons x xs ih =>
    refine nodup_cons.2 ⟨fun hx => ?_, ih hc.2⟩
    obtain ⟨as, bs, rfl⟩ := append_of_mem hx
    have h1 : Chain next (some x) (x :: bs) := hc.2.drop
    have h2 : Chain next (some x) (x :: (as ++ x :: bs)) := ⟨rfl, hc.2⟩
    have := congrArg List.length (h1.unique h2)
    simp only [length_cons, length_append] at this
    omega

/-- Splicing a chain of other nodes onto the last node of a chain. -/
theorem Chain.append (hc : Chain next h (xs ++ [x])) (hc' : Chain next' (next' x) ys)
    (hn : ∀ z ∈ xs, next' z = next z) : Chain next' h (xs ++ x :: ys) := by
  induction xs generalizing h with
  | nil => exact ⟨hc.1, hc'⟩
  | cons z xs ih =>
    refine ⟨hc.1, ?_⟩
    rw [hn z (by simp)]
    exact ih hc.2 fun w hw => hn w (by simp [hw])

variable [DecidableEq α]

/-- A node in front of a chain: its link is set to the old head. -/
theorem Chain.push (hc : Chain next h xs) (hx : x ∉ xs) :
    Chain (update next x h) (some x) (x :: xs) := by
  refine ⟨rfl, ?_⟩
  rw [update_self]
  exact hc.congr fun y hy => update_of_ne (ne_of_mem_of_not_mem hy hx) ..

/-- Unlinking an inner node: its predecessor takes over its link, its own link is cleared. -/
theorem Chain.unlink (hc : Chain next h (xs ++ y :: x :: ys)) :
    Chain (update (update next y (next x)) x none) h (xs ++ y :: ys) := by
  have hnd := hc.nodup
  rw [nodup_append, nodup_cons, nodup_cons] at hnd
  obtain ⟨-, ⟨hy, hx, -⟩, hdis⟩ := hnd
  have hyx : y ≠ x := fun e => hy (by simp [e])
  have hys : ∀ z ∈ ys,
      update (update next y (next x)) x none z = next z := by
    intro z hz
    rw [update_of_ne (ne_of_mem_of_not_mem hz hx),
      update_of_ne (fun e => hy (by simp [← e, hz]))]
  have htail : Chain next (next x) ys := hc.drop.2.2
  induction xs generalizing h with
  | nil =>
    refine ⟨hc.1, ?_⟩
    rw [update_of_ne hyx, update_self]
    exact htail.congr hys
  | cons z zs ih =>
    refine ⟨hc.1, ?_⟩
    have hzy : z ≠ y := hdis z (by simp) y (by simp)
    have hzx : z ≠ x := hdis z (by simp) x (by simp)
    rw [update_of_ne hzx, update_of_ne hzy]
    exact ih hc.2 fun a ha b hb => hdis a (by simp [ha]) b hb

end Chain

/-! ## Loops over a list -/

/-- `while (p) { if (q(p)) return p; p = p->next; }`, for at most `fuel` turns; the outer `none` is
a loop that did not end. -/
def findNode (next : α → Option α) (q : α → Bool) : Nat → Option α → Option (Option α)
  | 0, _ => none
  | _ + 1, none => some none
  | fuel + 1, some x => if q x then some (some x) else findNode next q fuel (next x)

/-- `while (current->next) current = current->next;`, for at most `fuel` turns. -/
def lastNode (next : α → Option α) : Nat → α → Option α
  | 0, _ => none
  | fuel + 1, x => match next x with
    | none => some x
    | some y => lastNode next fuel y

/-- `while (p) { body(p); p = p->next; }`, for at most `fuel` turns. -/
def forNodes (next : σ → α → Option α) (body : α → σ → σ) : Nat → Option α → σ → Option σ
  | 0, _, _ => none
  | _ + 1, none, s => some s
  | fuel + 1, some x, s => forNodes next body fuel (next (body x s) x) (body x s)

/-- The search loop finds the first node of the chain that it looks for. -/
theorem findNode_chain {next : α → Option α} {q : α → Bool} {fuel : Nat} {h : Option α}
    {xs : List α} (hc : Chain next h xs) (hf : xs.length < fuel) :
    findNode next q fuel h = some (xs.find? q) := by
  induction xs generalizing fuel h with
  | nil =>
    obtain ⟨fuel, rfl⟩ := Nat.exists_eq_succ_of_ne_zero (Nat.ne_of_gt hf)
    rw [chain_nil.1 hc]
    rfl
  | cons x xs ih =>
    obtain ⟨fuel, rfl⟩ := Nat.exists_eq_succ_of_ne_zero (by omega : fuel ≠ 0)
    rw [hc.1, findNode, find?_cons]
    split
    · next hq => rw [hq]
    · next hq =>
      rw [Bool.eq_false_iff.2 hq]
      exact ih hc.2 (by simpa using hf)

/-- The walk to the tail ends at the last node of the chain. -/
theorem lastNode_chain {next : α → Option α} {fuel : Nat} {x : α} {xs : List α}
    (hc : Chain next (some x) (x :: xs)) (hf : xs.length < fuel) :
    lastNode next fuel x = some ((x :: xs).getLast (by simp)) := by
  induction xs generalizing fuel x with
  | nil =>
    obtain ⟨fuel, rfl⟩ := Nat.exists_eq_succ_of_ne_zero (Nat.ne_of_gt hf)
    rw [lastNode, chain_nil.1 hc.2]
    rfl
  | cons y ys ih =>
    obtain ⟨fuel, rfl⟩ := Nat.exists_eq_succ_of_ne_zero (by omega : fuel ≠ 0)
    rw [lastNode, hc.2.1, getLast_cons (by simp)]
    exact ih ⟨rfl, hc.2.2⟩ (by simpa using hf)

/-- A loop whose body keeps the links runs the body once on every node of the chain. -/
theorem forNodes_chain (next : σ → α → Option α) (body : α → σ → σ)
    (hb : ∀ x s, next (body x s) = next s) {fuel : Nat} {h : Option α} {xs : List α} {s : σ}
    (hc : Chain (next s) h xs) (hf : xs.length < fuel) :
    forNodes next body fuel h s = some (xs.foldl (fun s x => body x s) s) := by
  induction xs generalizing fuel h s with
  | nil =>
    obtain ⟨fuel, rfl⟩ := Nat.exists_eq_succ_of_ne_zero (Nat.ne_of_gt hf)
    rw [chain_nil.1 hc]
    rfl
  | cons x xs ih =>
    obtain ⟨fuel, rfl⟩ := Nat.exists_eq_succ_of_ne_zero (by omega : fuel ≠ 0)
    rw [hc.1, forNodes, foldl_cons]
    refine ih ?_ (by simpa using hf)
    rw [hb]
    exact hc.2

end Lib
