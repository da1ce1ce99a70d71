import Mathlib.Algebra.Group.Nat.Defs
import Mathlib.Logic.Function.Basic

/-!
# Copying a range of cells

A memory is a function of 32-bit addresses. A range is copied cell by cell, on a memory that is read
and written at once: from the first cell on (`copyUp`) or from the last one on (`copyDown`). What either
loop leaves depends on where the two ranges start; upwards into the range it reads from, `copyUp`
repeats the cells it has written.
-/

namespace Lib

open Function

variable {α : Type*} {n k : Nat} {d s : UInt32} {m : UInt32 → α}

/-- `n` cells from `s` on are copied to those from `d` on, the first one first. -/
def copyUp : Nat → UInt32 → UInt32 → (UInt32 → α) → UInt32 → α
  | 0, _, _, m => m
  | n + 1, d, s, m => copyUp n (d + 1) (s + 1) (update m d (m s))

/-- `n` cells up to `s` are copied to those up to `d`, the last one first. -/
def copyDown : Nat → UInt32 → UInt32 → (UInt32 → α) → UInt32 → α
  | 0, _, _, m => m
  | n + 1, d, s, m => copyDown n (d - 1) (s - 1) (update m (d - 1) (m (s - 1)))

/-- The cells from `d` on are those that were there from `s` on, and no others have changed. -/
structure Moved (n : Nat) (d s : UInt32) (m m' : UInt32 → α) : Prop where
  copied : ∀ i < n, m' (d + .ofNat i) = m (s + .ofNat i)
  kept : ∀ a, (∀ i < n, a ≠ d + .ofNat i) → m' a = m a

/-- A move leaves one memory. -/
theorem Moved.unique {m₁ m₂ : UInt32 → α} (h₁ : Moved n d s m m₁) (h₂ : Moved n d s m m₂) :
    m₁ = m₂ := by
  funext a
  by_cases ha : ∃ i < n, a = d + .ofNat i
  · obtain ⟨i, hi, rfl⟩ := ha
    rw [h₁.copied i hi, h₂.copied i hi]
  · have hout : ∀ i < n, a ≠ d + .ofNat i := fun i hi he => ha ⟨i, hi, he⟩
    rw [h₁.kept a hout, h₂.kept a hout]

/-! ## Offsets -/

theorem add_ofNat_zero (d : UInt32) : d + .ofNat 0 = d := UInt32.add_zero d

theorem add_ofNat_add (d : UInt32) (i j : Nat) : d + .ofNat (i + j) = d + .ofNat j + .ofNat i := by
  rw [UInt32.ofNat_add, UInt32.add_comm (.ofNat i), UInt32.add_assoc]

theorem add_ofNat_succ (d : UInt32) (i : Nat) : d + .ofNat (i + 1) = d + 1 + .ofNat i :=
  add_ofNat_add d i 1

/-- Different offsets lead to different cells. -/
theorem add_ofNat_ne {i j : Nat} (hij : i < j) (hj : j < 2 ^ 32) : d + .ofNat i ≠ d + .ofNat j := by
  rw [Ne, UInt32.add_right_inj, ← UInt32.toNat_inj, UInt32.toNat_ofNat_of_lt' (Nat.lt_trans hij hj),
    UInt32.toNat_ofNat_of_lt' hj]
  exact Nat.ne_of_lt hij

/-! ## The loops -/

theorem copyUp_kept {a : UInt32} (ha : ∀ i < n, a ≠ d + .ofNat i) : copyUp n d s m a = m a := by
  induction n generalizing d s m with
  | zero => rfl
  | succ n ih =>
    have h0 := ha 0 n.succ_pos
    rw [add_ofNat_zero] at h0
    rw [copyUp, ih fun i hi => add_ofNat_succ d i ▸ ha (i + 1) (Nat.succ_lt_succ hi),
      update_of_ne h0]

/-- The first cell is copied, and then left alone. -/
theorem copyUp_first (hn : n < 2 ^ 32) : copyUp (n + 1) d s m d = m s := by
  rw [copyUp, copyUp_kept, update_self]
  intro i hi
  have hne := add_ofNat_ne (d := d) i.succ_pos (by omega)
  rwa [add_ofNat_zero, add_ofNat_succ] at hne

/-- Upwards is right, unless the destination starts inside the source. -/
theorem moved_copyUp (hn : n ≤ 2 ^ 32) (h : ∀ i, 0 < i → i < n → d ≠ s + .ofNat i) :
    Moved n d s m (copyUp n d s m) := by
  refine ⟨?_, fun a => copyUp_kept⟩
  induction n generalizing d s m with
  | zero => exact nofun
  | succ n ih =>
    rintro (_ | i) hi
    · rw [add_ofNat_zero, add_ofNat_zero, copyUp_first hn]
    · have hrest : ∀ j, 0 < j → j < n → d + 1 ≠ s + 1 + .ofNat j := by
        intro j h0 hj he
        rw [← add_ofNat_succ, Nat.add_comm, add_ofNat_add] at he
        exact h j h0 (by omega) ((UInt32.add_left_inj 1).1 he)
      have hread := h (i + 1) i.succ_pos hi
      rw [add_ofNat_succ] at hread ⊢
      rw [add_ofNat_succ, copyUp, ih (by omega) hrest i (by omega), update_of_ne hread.symm]

/-- Downwards is right, unless the source starts inside the destination. -/
theorem moved_copyDown (hn : n ≤ 2 ^ 32) (h : ∀ i, 0 < i → i < n → s ≠ d + .ofNat i) :
    Moved n d s m (copyDown n (d + .ofNat n) (s + .ofNat n) m) := by
  induction n generalizing m with
  | zero => exact ⟨nofun, fun _ _ => rfl⟩
  | succ n ih =>
    have hpred (p : UInt32) : p + .ofNat (n + 1) - 1 = p + .ofNat n := by
      rw [Nat.add_comm, add_ofNat_add]
      exact UInt32.add_sub_cancel ..
    have hm := ih (m := update m (d + .ofNat n) (m (s + .ofNat n))) (by omega)
      fun i h0 hi => h i h0 (by omega)
    rw [copyDown, hpred, hpred]
    refine ⟨fun i hi => ?_, fun a ha => ?_⟩
    · rcases Nat.lt_succ_iff_lt_or_eq.1 hi with hlt | rfl
      · obtain ⟨j, rfl⟩ := Nat.exists_eq_add_of_lt hlt
        rw [hm.copied i hlt, update_of_ne]
        rw [Nat.add_assoc, add_ofNat_add, Ne, UInt32.add_left_inj]
        exact h (j + 1) j.succ_pos (by omega)
      · rw [hm.kept, update_self]
        exact fun j hj => (add_ofNat_ne hj (by omega)).symm
    · rw [hm.kept a fun i hi => ha i (by omega), update_of_ne (ha n n.lt_succ_self)]

/-! ## Upwards into the source -/

/-- A copy upwards to a range that starts above the source repeats what it has written. -/
theorem copyUp_repeats (hn : n ≤ 2 ^ 32) (h : ∀ i < n, s ≠ d + .ofNat i) :
    ∀ i < n, copyUp n d s m (d + .ofNat i) = copyUp n d s m (s + .ofNat i) := by
  induction n generalizing d s m with
  | zero => exact nofun
  | succ n ih =>
    rintro (_ | i) hi
    · rw [add_ofNat_zero, add_ofNat_zero, copyUp_first hn, copyUp_kept h]
    · have hrest : ∀ j < n, s + 1 ≠ d + 1 + .ofNat j := by
        intro j hj he
        rw [← add_ofNat_succ, Nat.add_comm, add_ofNat_add] at he
        exact h j (by omega) ((UInt32.add_left_inj 1).1 he)
      rw [add_ofNat_succ, add_ofNat_succ, copyUp]
      exact ih (by omega) hrest i (by omega)

/-- A copy to the cells `k` further up is right just when these repeat with period `k` as far as the
ranges overlap. -/
theorem moved_copyUp_iff (hk : 0 < k) (hn : k + n ≤ 2 ^ 32) :
    Moved n (s + .ofNat k) s m (copyUp n (s + .ofNat k) s m) ↔
      ∀ i, k + i < n → m (s + .ofNat (k + i)) = m (s + .ofNat i) := by
  have hstart (i : Nat) : s + .ofNat k + .ofNat i = s + .ofNat (k + i) := by
    rw [Nat.add_comm, add_ofNat_add]
  have hbelow {j : Nat} (hj : j < k) : ∀ i < n, s + .ofNat j ≠ s + .ofNat k + .ofNat i := by
    intro i hi
    rw [hstart]
    exact add_ofNat_ne (by omega) (by omega)
  have hrep := copyUp_repeats (m := m) (by omega) (add_ofNat_zero s ▸ hbelow hk)
  constructor
  · intro h i hi
    have hfar := hrep (k + i) hi
    rw [h.copied _ hi, ← hstart, h.copied i (by omega)] at hfar
    rwa [← hstart]
  · intro h
    refine ⟨fun i => ?_, fun a => copyUp_kept⟩
    -- what is read at `i` is an old cell, or was written `k` cells before
    induction i using Nat.strongRecOn with
    | ind i ih =>
      intro hi
      rw [hrep i hi]
      rcases Nat.lt_or_ge i k with hlt | hge
      · exact copyUp_kept (hbelow hlt)
      · obtain ⟨j, rfl⟩ := Nat.exists_eq_add_of_le hge
        rw [← hstart, ih j (by omega) (by omega), hstart, h j hi]

end Lib
