import Mathlib.Data.Set.Image

/-!
# Exclusive ownership

An assignment of resources to slots, where `0` stands for an empty slot. `Exclusive` says that no
resource is in two slots, and `held` is the set of resources in use. A pool that hands resources out
keeps track of `held`; the lemmas say how it changes when a slot is filled with a resource that was
not in use, and when slots are emptied.
-/

namespace Lib

open Function

section
variable {K B : Type*} [Zero B] {own own' : K → B}

/-- The resources in the slots. -/
def held (own : K → B) : Set B := {b | b ≠ 0 ∧ ∃ x, own x = b}

/-- No resource is in two slots. -/
def Exclusive (own : K → B) : Prop := ∀ x y, own x ≠ 0 → own x = own y → x = y

theorem mem_held {x : K} (h : own x ≠ 0) : own x ∈ held own := ⟨h, x, rfl⟩

/-- Emptying the slots in `S` gives back what was in them. -/
theorem Exclusive.held_clear {S : Set K} (h : Exclusive own) (hS : ∀ x ∈ S, own' x = 0)
    (hn : ∀ x ∉ S, own' x = own x) : held own' = held own \ own '' S := by
  ext b
  constructor
  · rintro ⟨hb, x, rfl⟩
    have hx : x ∉ S := fun hx => hb (hS x hx)
    rw [hn x hx] at hb ⊢
    refine ⟨mem_held hb, ?_⟩
    rintro ⟨y, hy, hxy⟩
    exact hx (h x y hb hxy.symm ▸ hy)
  · rintro ⟨⟨hb, x, rfl⟩, hx⟩
    have hx : x ∉ S := fun hxS => hx ⟨x, hxS, rfl⟩
    exact ⟨hb, x, hn x hx⟩

theorem Exclusive.clear {S : Set K} (h : Exclusive own) (hS : ∀ x ∈ S, own' x = 0)
    (hn : ∀ x ∉ S, own' x = own x) : Exclusive own' := by
  intro x y hx hxy
  have hxS : x ∉ S := fun h => hx (hS x h)
  have hyS : y ∉ S := fun h => hx (hxy.trans (hS y h))
  rw [hn x hxS] at hx hxy
  rw [hn y hyS] at hxy
  exact h x y hx hxy

variable [DecidableEq K]

/-- Filling an empty slot. -/
theorem held_update {x : K} {b : B} (hx : own x = 0) (hb : b ≠ 0) :
    held (update own x b) = insert b (held own) := by
  ext c
  constructor
  · rintro ⟨hc, y, rfl⟩
    rcases eq_or_ne y x with rfl | hy
    · exact .inl (update_self ..)
    · rw [update_of_ne hy] at hc ⊢
      exact .inr (mem_held hc)
  · rintro (rfl | ⟨hc, y, rfl⟩)
    · exact ⟨hb, x, update_self ..⟩
    · have hy : y ≠ x := fun h => hc (h ▸ hx)
      exact ⟨hc, y, update_of_ne hy ..⟩

/-- Handing out what nobody holds keeps ownership exclusive. -/
theorem Exclusive.update {x : K} {b : B} (h : Exclusive own) (hb : b ∉ held own) :
    Exclusive (update own x b) := by
  intro y z hy hyz
  have hfree : ∀ w, own w = b → b = 0 := fun w hw =>
    Classical.byContradiction fun hb0 => hb ⟨hb0, w, hw⟩
  rcases eq_or_ne y x with hyx | hyx <;> rcases eq_or_ne z x with hzx | hzx
  · rw [hyx, hzx]
  · rw [hyx, update_self] at hy
    rw [hyx, update_self, update_of_ne hzx] at hyz
    exact absurd (hfree z hyz.symm) hy
  · rw [update_of_ne hyx] at hy hyz
    rw [hzx, update_self] at hyz
    exact absurd (hyz.trans (hfree y hyz)) hy
  · rw [update_of_ne hyx] at hy hyz
    rw [update_of_ne hzx] at hyz
    exact h y z hy hyz

end

end Lib
