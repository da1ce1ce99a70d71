import Mathlib.Logic.Function.Iterate

/-!
# Walking along links

Nodes with a `next` field that never is null, such as those of a ring. `Walk next l z` says that
following `next` from the first node of `l` visits the nodes of `l` and then meets `z`; a ring is a
walk back to its own first node, and it can be entered at any of its nodes (`Walk.rotate`). `seek`
is the loop that follows `next` until it meets a node it looks for.
-/

namespace Lib

variable {α : Type*}

/-- Following `next` visits the nodes of the list and then meets `z`. -/
def Walk (next : α → α) : List α → α → Prop
  | [], _ => True
  | a :: l, z => next a = l.headD z ∧ Walk next l z

/-- `for(p = a; !q(p); p = p->next);`, for at most so many turns. -/
def seek (next : α → α) (q : α → Bool) : Nat → α → Option α
  | 0, _ => none
  | n + 1, a => if q a then some a else seek next q n (next a)

section
variable {next next' : α → α} {q : α → Bool} {l m : List α} {a z : α} {n : Nat}

theorem walk_append : Walk next (l ++ m) z ↔ Walk next l (m.headD z) ∧ Walk next m z := by
  induction l with
  | nil => exact (true_and _).symm ▸ Iff.rfl
  | cons a l ih =>
    rw [List.cons_append, Walk, Walk, ih, and_assoc]
    cases l <;> rfl

/-- A walk reads `next` at its own nodes only. -/
theorem Walk.congr (h : Walk next l z) (hn : ∀ a ∈ l, next' a = next a) : Walk next' l z := by
  induction l with
  | nil => exact h
  | cons a l ih =>
    exact ⟨(hn a List.mem_cons_self).trans h.1,
      ih h.2 fun b hb => hn b (List.mem_cons_of_mem a hb)⟩

/-- A ring seen from one of its nodes. -/
theorem Walk.rotate (h : Walk next (l ++ a :: m) ((l ++ a :: m).headD z)) :
    Walk next (a :: (m ++ l)) a := by
  obtain ⟨hl, hm⟩ := walk_append.1 h
  rw [← List.cons_append]
  refine walk_append.2 ⟨?_, hl⟩
  cases l with
  | nil | cons b l => exact hm

/-- A loop that looks for a node of the walk ahead finds one. -/
theorem seek_walk (h : Walk next l z) (ha : l.head? = some a) (hn : l.length ≤ n)
    (hq : ∃ b ∈ l, q b = true) : ∃ b ∈ l, seek next q n a = some b ∧ q b = true := by
  induction l generalizing a n with
  | nil => cases ha
  | cons b l ih =>
    cases ha
    cases n with
    | zero => cases hn
    | succ n =>
      rw [seek]
      split
      · exact ⟨b, List.mem_cons_self, rfl, ‹_›⟩
      · rename_i hb
        obtain ⟨c, hc, hqc⟩ := hq
        rcases List.mem_cons.1 hc with rfl | hc
        · exact (hb hqc).elim
        · cases l with
          | nil => cases hc
          | cons d l =>
            obtain ⟨e, he, hseek, hqe⟩ := ih h.2 rfl (Nat.le_of_succ_le_succ hn) ⟨c, hc, hqc⟩
            rw [h.1]
            exact ⟨e, List.mem_cons_of_mem b he, hseek, hqe⟩

end

end Lib
