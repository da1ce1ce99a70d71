import Mathlib.Algebra.BigOperators.Group.Finset.Piecewise
import Mathlib.Algebra.Group.Pi.Lemmas
import Mathlib.Algebra.Ring.Int.Defs
import Mathlib.Data.Fintype.Card

/-!
# References

References to resources are counted as functions to the integers. They are held by the entries of
tables; `card_filter_update` says how the number of entries that hold a resource changes with one entry.
-/

namespace Lib

open Function Finset

section
variable {ι : Type*} [DecidableEq ι]

/-- One reference to a resource. -/
def one (i : ι) : ι → Int := Pi.single i 1

/-- The reference that an entry of a table holds. -/
def owned : Option ι → ι → Int
  | some i => one i
  | none => 0

theorem one_apply (i j : ι) : one i j = if j = i then 1 else 0 := Pi.single_apply i 1 j

theorem owned_apply (o : Option ι) (i : ι) : owned o i = if o = some i then 1 else 0 := by
  cases o with
  | none => rfl
  | some j => rw [owned, one_apply, if_congr (eq_comm.trans Option.some_inj.symm) rfl rfl]

theorem one_apply_nonneg (i j : ι) : 0 ≤ one i j := by
  rw [one_apply]
  split <;> decide

theorem one_self_pos (i : ι) : 0 < one i i := by
  rw [one, Pi.single_eq_same]
  exact Int.one_pos

/-- A reference is given up. -/
theorem sub_one (held : ι → Int) (i : ι) : held - one i = held + Pi.single i (-1) := by
  rw [one, sub_eq_add_neg, ← Pi.single_neg]

end

/-- Some entry of a table has the property when their number is not zero. -/
theorem card_filter_pos {ι : Type*} [Fintype ι] (P : ι → Prop) [DecidablePred P] :
    0 < (Finset.univ.filter P).card ↔ ∃ i, P i := by
  simp [card_pos, filter_nonempty_iff]

/-- Replacing one entry of a table changes the number of entries with a property by at most one. -/
theorem card_filter_update {ι X : Type*} [Fintype ι] [DecidableEq ι] (P : X → Prop)
    [DecidablePred P] (g : ι → X) (i : ι) (x : X) :
    ((Finset.univ.filter fun j => P (update g i x j)).card : Int) =
      (Finset.univ.filter fun j => P (g j)).card +
        ((if P x then 1 else 0) - if P (g i) then 1 else 0) := by
  rw [card_filter, card_filter, ← add_sum_erase _ _ (mem_univ i),
    ← add_sum_erase univ _ (mem_univ i)]
  have hrest : ∑ j ∈ univ.erase i, (if P (update g i x j) then 1 else 0) =
      ∑ j ∈ univ.erase i, if P (g j) then 1 else 0 :=
    sum_congr rfl fun j hj => by
      rw [update_of_ne (ne_of_mem_erase hj)]
  rw [hrest, update_self]
  split <;> split <;> omega

end Lib
