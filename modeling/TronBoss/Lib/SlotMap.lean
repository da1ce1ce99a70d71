import Mathlib.Data.List.Basic

/-!
# A finite map in a list of slots

A list of slots, each empty or with a key and a value, is a finite map while no key stands in two
slots (`Distinct`). A key is looked up from the front; a new binding goes into the first empty slot,
or behind the last one; a binding is removed by emptying its slot. The lemmas say what that does to the
map `find`.
-/

namespace Lib.SlotMap

open Function List

section
variable {K V : Type} [DecidableEq K]

/-- The first slot with the key. -/
def index (l : List (Option (K × V))) (k : K) : Option Nat :=
  l.findIdx? fun x => x.any fun b => decide (b.1 = k)

/-- The value of the key. -/
def find (l : List (Option (K × V))) (k : K) : Option V :=
  (index l k).bind fun j => (l.getD j none).map Prod.snd

omit [DecidableEq K] in
/-- The first empty slot, or the place behind the last one. -/
def room (l : List (Option (K × V))) : Nat := l.findIdx Option.isNone

omit [DecidableEq K] in
/-- The slots with `x` stored there. -/
def put (l : List (Option (K × V))) (x : Option (K × V)) : List (Option (K × V)) :=
  if room l < l.length then l.set (room l) x else l ++ [x]

omit [DecidableEq K] in
/-- The slots with one more binding. -/
def insert (l : List (Option (K × V))) (b : K × V) : List (Option (K × V)) := put l (some b)

omit [DecidableEq K] in
/-- No key stands in two slots. -/
def Distinct (l : List (Option (K × V))) : Prop :=
  ∀ (i j : Nat) (k : K) (v w : V), l[i]? = some (some (k, v)) → l[j]? = some (some (k, w)) → i = j

variable {l : List (Option (K × V))} {k : K} {v : V} {j : Nat}

theorem index_eq_none : index l k = none ↔ ∀ (j : Nat) (v : V), l[j]? ≠ some (some (k, v)) := by
  rw [index, findIdx?_eq_none_iff]
  constructor
  · intro h j v hj
    have hx := h _ (mem_of_getElem? hj)
    simp at hx
  · intro h x hx
    obtain ⟨j, hj⟩ := getElem?_of_mem hx
    cases x with
    | none => rfl
    | some b =>
      refine Bool.eq_false_iff.2 fun hb => h j b.2 ?_
      rw [Option.any_some, decide_eq_true_eq] at hb
      rw [hj, ← hb]

/-- The slot that `index` finds has the key. -/
theorem exists_of_index (h : index l k = some j) : ∃ v, l[j]? = some (some (k, v)) := by
  obtain ⟨hlt, hx, -⟩ := findIdx?_eq_some_iff_getElem.1 h
  cases hb : l[j] with
  | none =>
    rw [hb] at hx
    simp at hx
  | some b =>
    rw [hb, Option.any_some, decide_eq_true_eq] at hx
    exact ⟨b.2, by rw [getElem?_eq_getElem hlt, hb, ← hx]⟩

theorem find_eq_none : find l k = none ↔ index l k = none := by
  constructor
  · intro h
    cases hj : index l k with
    | none => rfl
    | some j =>
      obtain ⟨v, hv⟩ := exists_of_index hj
      rw [find, hj] at h
      simp [getD_eq_getElem?_getD, hv] at h
  · intro h
    rw [find, h]
    rfl

theorem find_of_index (h : index l k = some j) (hv : l[j]? = some (some (k, v))) :
    find l k = some v := by
  rw [find, h]
  simp [getD_eq_getElem?_getD, hv]

variable (h : Distinct l)
include h

theorem Distinct.index_eq (hv : l[j]? = some (some (k, v))) : index l k = some j := by
  cases hj : index l k with
  | none => exact absurd hv (index_eq_none.1 hj j v)
  | some i =>
    obtain ⟨w, hw⟩ := exists_of_index hj
    rw [h i j k w v hw hv]

/-- While the keys are distinct, the map has exactly the bindings in the slots. -/
theorem Distinct.find_eq_some : find l k = some v ↔ ∃ j : Nat, l[j]? = some (some (k, v)) := by
  constructor
  · intro hf
    cases hj : index l k with
    | none =>
      rw [find_eq_none.2 hj] at hf
      cases hf
    | some j =>
      obtain ⟨w, hw⟩ := exists_of_index hj
      rw [find_of_index hj hw] at hf
      exact ⟨j, Option.some.inj hf ▸ hw⟩
  · rintro ⟨j, hj⟩
    exact find_of_index (h.index_eq hj) hj

end

/-! ## Adding a binding -/

section
variable {K V : Type} {l : List (Option (K × V))} {b : K × V} {j : Nat}

/-- The slot for a new binding has none. -/
theorem getElem?_room (v : K × V) : l[room l]? ≠ some (some v) := by
  intro hv
  obtain ⟨hlt, hv⟩ := List.getElem?_eq_some_iff.1 hv
  have hnone : (l[room l]).isNone = true := findIdx_getElem
  rw [hv] at hnone
  cases hnone

/-- The slot for a new binding is the first empty one. -/
theorem room_le_of_none (h : l[j]? = some none) : room l ≤ j := by
  obtain ⟨hlt, hj⟩ := List.getElem?_eq_some_iff.1 h
  exact Nat.not_lt.1 fun hgt => by
    have hsome := not_of_lt_findIdx hgt
    rw [hj] at hsome
    exact Bool.noConfusion hsome

theorem room_le : room l ≤ l.length := findIdx_le_length

theorem getElem?_put_room (x : Option (K × V)) : (put l x)[room l]? = some x := by
  unfold put
  split
  · rename_i hlt
    rw [getElem?_set_self hlt]
  · rename_i hge
    rw [getElem?_append_right (Nat.not_lt.1 hge)]
    have hend : room l = l.length := Nat.le_antisymm room_le (Nat.not_lt.1 hge)
    rw [hend, Nat.sub_self]
    rfl

/-- The slots after a new binding: the new one in its slot, the others as before. -/
theorem getElem?_insert (c : K × V) :
    (insert l b)[j]? = some (some c) ↔
      j = room l ∧ c = b ∨ j ≠ room l ∧ l[j]? = some (some c) := by
  have hle : room l ≤ l.length := room_le
  unfold insert put
  split
  · rename_i hlt
    rw [getElem?_set]
    split
    · rename_i heq
      subst heq
      simp [hlt, eq_comm]
    · rename_i hne
      simp [Ne.symm hne]
  · have hend : room l = l.length := by omega
    rw [hend, getElem?_append]
    split
    · rename_i hlt
      simp [Nat.ne_of_lt hlt]
    · rename_i hge'
      rcases Nat.eq_or_lt_of_le (Nat.not_lt.1 hge') with heq | hlt
      · subst heq
        simp [eq_comm]
      · have h1 : [some b][j - l.length]? = none := by
          rw [getElem?_eq_none_iff, length_singleton]
          omega
        have h2 : l[j]? = none := by
          rw [getElem?_eq_none_iff]
          omega
        rw [h1, h2]
        simp [Nat.ne_of_gt hlt]

variable [DecidableEq K] (h : Distinct l) (hnew : index l b.1 = none)
include h hnew

theorem Distinct.insert : Distinct (insert l b) := by
  intro i j k v w hi hj
  rw [getElem?_insert] at hi hj
  rcases hi with ⟨rfl, hi⟩ | ⟨hni, hi⟩ <;> rcases hj with ⟨rfl, hj⟩ | ⟨hnj, hj⟩
  · rfl
  · have hk : k = b.1 := congrArg Prod.fst hi
    exact absurd (hk ▸ hj) (index_eq_none.1 hnew j w)
  · have hk : k = b.1 := congrArg Prod.fst hj
    exact absurd (hk ▸ hi) (index_eq_none.1 hnew i v)
  · exact h i j k v w hi hj

/-- A binding for a key that had none is added to the map, and nothing else changes. -/
theorem Distinct.find_insert :
    find (SlotMap.insert l b) = update (find l) b.1 (some b.2) := by
  funext k
  refine Option.ext fun v => ?_
  rw [(h.insert hnew).find_eq_some]
  rcases eq_or_ne k b.1 with rfl | hk
  · rw [update_self]
    constructor
    · rintro ⟨j, hj⟩
      rcases (getElem?_insert _).1 hj with ⟨-, hb⟩ | ⟨-, hj⟩
      · rw [← hb]
      · exact absurd hj (index_eq_none.1 hnew j v)
    · intro hv
      exact ⟨room l, (getElem?_insert _).2 (.inl ⟨rfl, Prod.ext rfl (Option.some.inj hv).symm⟩)⟩
  · rw [update_of_ne hk, h.find_eq_some]
    refine exists_congr fun j => ?_
    rw [getElem?_insert]
    constructor
    · rintro (⟨-, hb⟩ | ⟨-, hj⟩)
      · exact absurd (congrArg Prod.fst hb) hk
      · exact hj
    · intro hj
      refine .inr ⟨?_, hj⟩
      rintro rfl
      exact getElem?_room _ hj

end

/-! ## Removing a binding -/

section
variable {K V : Type} {l : List (Option (K × V))} {j : Nat}

theorem getElem?_set_none {i : Nat} (c : K × V) :
    (l.set j none)[i]? = some (some c) ↔ i ≠ j ∧ l[i]? = some (some c) := by
  rw [getElem?_set]
  split
  · rename_i heq
    subst heq
    simp
  · rename_i hne
    simp [Ne.symm hne]

theorem Distinct.erase (h : Distinct l) (j : Nat) : Distinct (l.set j none) := by
  intro i i' k v w hi hi'
  exact h i i' k v w ((getElem?_set_none _).1 hi).2 ((getElem?_set_none _).1 hi').2

variable [DecidableEq K]

/-- Emptying the slot of a key removes its binding, and nothing else changes. -/
theorem Distinct.find_erase (h : Distinct l) {k : K} (hj : index l k = some j) :
    find (l.set j none) = update (find l) k none := by
  obtain ⟨v0, hv0⟩ := exists_of_index hj
  funext k'
  refine Option.ext fun v => ?_
  rw [(h.erase j).find_eq_some]
  rcases eq_or_ne k' k with rfl | hk
  · rw [update_self]
    refine ⟨?_, nofun⟩
    rintro ⟨i, hi⟩
    obtain ⟨hne, hi⟩ := (getElem?_set_none _).1 hi
    exact absurd (h i j _ _ _ hi hv0) hne
  · rw [update_of_ne hk, h.find_eq_some]
    refine exists_congr fun i => ?_
    rw [getElem?_set_none]
    refine ⟨And.right, fun hi => ⟨?_, hi⟩⟩
    rintro rfl
    rw [hv0] at hi
    exact hk (congrArg Prod.fst (Option.some.inj (Option.some.inj hi))).symm

end

end Lib.SlotMap
