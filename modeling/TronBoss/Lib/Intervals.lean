
/-!
# Memory as intervals

An interval of addresses is its first address and its length. `cover bs x` counts the intervals of a
list that hold the address `x`. That two lists of intervals tile the same memory without overlap is
one equation between such counts, which adds up over the parts of a list and is kept when an
interval is split in two.
-/

namespace Lib

/-- The address is in the interval. -/
def InInterval (x : Nat) (b : Nat × Nat) : Prop := b.1 ≤ x ∧ x < b.1 + b.2

instance (x : Nat) (b : Nat × Nat) : Decidable (InInterval x b) :=
  inferInstanceAs (Decidable (_ ∧ _))

/-- The number of intervals that hold the address. -/
def cover (bs : List (Nat × Nat)) (x : Nat) : Nat := bs.countP fun b => InInterval x b

/-- Two intervals have no address in common. -/
def Apart (b c : Nat × Nat) : Prop := ∀ x, InInterval x b → ¬ InInterval x c

section
variable {bs cs : List (Nat × Nat)} {b : Nat × Nat} {x : Nat}

theorem cover_cons : cover (b :: bs) x = cover bs x + if InInterval x b then 1 else 0 := by
  rw [cover, List.countP_cons]
  simp only [decide_eq_true_eq]
  rfl

@[simp] theorem cover_append : cover (bs ++ cs) x = cover bs x + cover cs x := List.countP_append

theorem cover_perm (h : bs.Perm cs) : cover bs x = cover cs x := h.countP_eq _

theorem cover_pos : 0 < cover bs x ↔ ∃ b ∈ bs, InInterval x b := by
  rw [cover, List.countP_pos_iff]
  simp only [decide_eq_true_eq]

theorem cover_eq_zero : cover bs x = 0 ↔ ∀ b ∈ bs, ¬ InInterval x b := by
  rw [cover, List.countP_eq_zero]
  simp only [decide_eq_true_eq]

/-- Splitting an interval in two changes no count. -/
theorem cover_split (a m n : Nat) :
    cover ((a, m + n) :: bs) x = cover ((a, m) :: (a + m, n) :: bs) x := by
  rw [cover_cons, cover_cons, cover_cons]
  grind [InInterval]

/-- Where no address is held twice, the intervals are apart. -/
theorem pairwise_apart (h : ∀ x, cover bs x ≤ 1) : bs.Pairwise Apart := by
  induction bs with
  | nil => exact .nil
  | cons b bs ih =>
    refine List.pairwise_cons.2 ⟨fun c hc x hb hx => ?_, ih fun x => ?_⟩
    · have hx1 := h x
      have hpos := cover_pos.2 ⟨c, hc, hx⟩
      rw [cover_cons, if_pos hb] at hx1
      omega
    · have hx1 := h x
      rw [cover_cons] at hx1
      omega

/-- Intervals that are apart, one of them not empty, lie one after the other. -/
theorem Apart.le_or_le {c : Nat × Nat} (h : Apart b c) (hb : 0 < b.2) (hc : 0 < c.2) :
    b.1 + b.2 ≤ c.1 ∨ c.1 + c.2 ≤ b.1 := by
  have hstart := h b.1 ⟨Nat.le_refl _, by omega⟩
  have hstart' : ¬ InInterval c.1 b := fun hx => h c.1 hx ⟨Nat.le_refl _, by omega⟩
  simp only [InInterval] at hstart hstart'
  omega

end

end Lib
