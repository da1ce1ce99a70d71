import Mathlib.Data.Nat.ModEq

/-!
# Ring buffers with free-running counters

A buffer of `cap` cells with a read counter `r` and a write counter `w`. The counters are 32-bit
numbers that are only ever incremented, and an element is found at its counter modulo `cap`. As
long as `cap` divides `2 ^ 32`, the wrap-around of the counters is not seen. `ring` is the sequence of
the elements in the buffer; a write at `w` appends to it (`ring_put`) and a read at `r` removes its
head (`ring_get`).
-/

namespace Lib

open Function List

section
variable {α : Type*} {cap r w e : UInt32} {data : Nat → α}

/-- The number of elements is the difference of the counters. -/
theorem toNat_diff_eq_zero : (w - r).toNat = 0 ↔ r = w := by
  have hw := w.toNat_lt
  have hr := r.toNat_lt
  rw [UInt32.toNat_sub, ← UInt32.toNat_inj]
  omega

/-- The elements between the counters, the oldest one first. -/
def ring (cap : UInt32) (data : Nat → α) (r w : UInt32) : List α :=
  (List.range (w - r).toNat).map fun k => data ((r + UInt32.ofNat k) % cap).toNat

@[simp] theorem length_ring : (ring cap data r w).length = (w - r).toNat := by simp [ring]

@[simp] theorem ring_self : ring cap data r r = [] := by simp [ring]

theorem ring_eq_nil : ring cap data r w = [] ↔ r = w := by
  rw [← length_eq_zero_iff, length_ring, toNat_diff_eq_zero]

/-- The cell of a counter, in numbers. -/
theorem toNat_cell (hc : cap.toNat ∣ 2 ^ 32) (k : Nat) :
    ((r + UInt32.ofNat k) % cap).toNat = (r.toNat + k) % cap.toNat := by
  rw [UInt32.toNat_mod, UInt32.toNat_add, UInt32.toNat_ofNat', Nat.mod_mod_of_dvd _ hc,
    Nat.add_mod r.toNat, Nat.mod_mod_of_dvd _ hc, ← Nat.add_mod]

/-- Counters that are less than `cap` apart have different cells. -/
theorem cell_ne {a k m c : Nat} (h : k < m) (hm : m < k + c) : (a + k) % c ≠ (a + m) % c := by
  intro he
  have hd : c ∣ (a + m) - (a + k) := (Nat.modEq_iff_dvd' (by omega)).1 he
  have hle := Nat.le_of_dvd (by omega) hd
  omega

theorem add_ofNat_toNat_sub : r + UInt32.ofNat (w - r).toNat = w := by
  rw [UInt32.ofNat_toNat, UInt32.add_comm, UInt32.sub_add_cancel]

/-- One more element: below the capacity, the difference of the counters does not wrap. -/
theorem toNat_succ_sub (h : (w - r).toNat < cap.toNat) : (w + 1 - r).toNat = (w - r).toNat + 1 := by
  have hc := cap.toNat_lt
  rw [UInt32.toNat_sub] at h ⊢
  rw [UInt32.toNat_sub, UInt32.toNat_add, UInt32.toNat_one]
  omega

/-- The elements up to a counter on the way. -/
theorem ring_take (h : (w - r).toNat ≤ (e - r).toNat) :
    ring cap data r w = (ring cap data r e).take (w - r).toNat := by
  rw [ring, ring, ← map_take, take_range, min_eq_left h]

/-- The elements before and behind a counter on the way. -/
theorem ring_append (h : (w - r).toNat ≤ (e - r).toNat) :
    ring cap data r w ++ ring cap data w e = ring cap data r e := by
  have hlen : (e - r).toNat = (w - r).toNat + (e - w).toNat := by
    have hw := w.toNat_lt
    rw [UInt32.toNat_sub, UInt32.toNat_sub] at h ⊢
    rw [UInt32.toNat_sub]
    omega
  rw [ring, ring, ring, hlen, range_add, map_append, map_map]
  congr 1
  refine map_congr_left fun k _ => ?_
  rw [Function.comp_apply, UInt32.ofNat_add, ← UInt32.add_assoc, add_ofNat_toNat_sub]

/-- A write into a buffer that is not full appends an element. -/
theorem ring_put (hc : cap.toNat ∣ 2 ^ 32) (h : (w - r).toNat < cap.toNat) (x : α) :
    ring cap (update data (w % cap).toNat x) r (w + 1) = ring cap data r w ++ [x] := by
  have hw : w % cap = (r + UInt32.ofNat (w - r).toNat) % cap := by rw [add_ofNat_toNat_sub]
  rw [ring, ring, toNat_succ_sub h, range_succ, map_append, map_singleton]
  congr 1
  · refine map_congr_left fun k hk => update_of_ne ?_ ..
    rw [mem_range] at hk
    rw [hw, toNat_cell hc, toNat_cell hc]
    exact cell_ne hk (by omega)
  · rw [← hw, update_self]

/-- A read from a buffer that is not empty takes the oldest element. -/
theorem ring_get (h : r ≠ w) :
    ring cap data r w = data (r % cap).toNat :: ring cap data (r + 1) w := by
  have hlen : (w - r).toNat = (w - (r + 1)).toNat + 1 := by
    have hne : (w - r).toNat ≠ 0 := fun h0 => h (toNat_diff_eq_zero.1 h0)
    have hr := r.toNat_lt
    rw [UInt32.toNat_sub] at hne ⊢
    rw [UInt32.toNat_sub, UInt32.toNat_add, UInt32.toNat_one]
    omega
  rw [ring, ring, hlen, range_succ_eq_map, map_cons, map_map]
  congr 1
  · simp
  · refine map_congr_left fun k _ => ?_
    have hk : r + UInt32.ofNat (k + 1) = r + 1 + UInt32.ofNat k := by
      rw [UInt32.ofNat_add, UInt32.add_assoc, UInt32.add_comm (UInt32.ofNat k)]
      rfl
    rw [Function.comp_apply, Nat.succ_eq_add_one, hk]

end

end Lib
