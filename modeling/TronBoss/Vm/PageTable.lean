import TronBoss.Vm.Kalloc

/-!
# Page tables

`walkpgdir` and `mappages` of `vm.c`. A page directory is kept with its tables: an entry of the
directory that is present leads to a table, and the entries of the table are the words that the
hardware reads. The contents of the pages that hold them are not in `Mem.frame`.
-/

namespace TronBoss.Vm

open Lib Function

/-- A page of page-table entries. -/
structure PgTab where
  page : UInt32
  pte : Fin NPTENTRIES → UInt32

/-- A page directory. An entry that is present has the flags `PTE_P`, `PTE_W` and `PTE_U`. Each has
a table of its own: tables come from `kalloc` one by one, and no two entries share one. -/
structure PgDir where
  page : UInt32
  pde : Fin NPDENTRIES → Option PgTab

/-- A directory after its `memset`. -/
def PgDir.empty (page : UInt32) : PgDir := ⟨page, fun _ => none⟩

/-- `*pte`, for the entry that `walkpgdir` finds. -/
def PgDir.pte (d : PgDir) (va : UInt32) : UInt32 := (d.pde (PDX va)).elim 0 fun t => t.pte (PTX va)

/-- `*pte = x`. -/
def PgDir.setPte (d : PgDir) (va x : UInt32) : PgDir :=
  { d with
    pde := update d.pde (PDX va)
      ((d.pde (PDX va)).map fun t => { t with pte := update t.pte (PTX va) x }) }

/-- `*pde = v2p(pgtab) | PTE_P | PTE_W | PTE_U`, with a zeroed table. -/
def PgDir.addTable (d : PgDir) (va page : UInt32) : PgDir :=
  { d with pde := update d.pde (PDX va) (some ⟨page, fun _ => 0⟩) }

/-- `walkpgdir`: the directory with a table for the address, if there is one now. -/
def walkpgdir (d : PgDir) (va : UInt32) (alloc : Bool) : Routine Mem (Option PgDir) := do
  if (d.pde (PDX va)).isSome then return some d
  else if alloc = false then return none
  else
    match ← kalloc with
    | none => return none
    | some pgtab => return some (d.addTable va pgtab)

/-- More turns than there are pages in the address space. -/
def turns : Nat := 1048577

/-- The loop of `mappages` from the page `a` on, in at most so many turns. -/
def mapLoop (perm last : UInt32) : Nat → PgDir → UInt32 → UInt32 → Routine Mem (PgDir × Int)
  | 0, _, _, _ => throw .diverge
  | k + 1, d, a, pa => do
    match ← walkpgdir d a true with
    | none => return (d, -1)
    | some d =>
      panicIf (Present (d.pte a)) "remap"
      let d := d.setPte a (pa ||| perm ||| PTE_P)
      if a = last then return (d, 0)
      else mapLoop perm last k d (a + PGSIZE) (pa + PGSIZE)

/-- `mappages`: the directory, and what the function returns. -/
@[irreducible] def mappages (d : PgDir) (va size pa perm : UInt32) : Routine Mem (PgDir × Int) :=
  mapLoop perm (PGROUNDDOWN (va + size - 1)) turns d (PGROUNDDOWN va) pa

/-! ## The entries by page number -/

/-- The number of pages below the kernel. -/
def userPageCount : Nat := 524288

/-- The index in the directory for a page. -/
def tableOf (v : Nat) : Fin NPDENTRIES := Fin.ofNat 1024 (v / 1024)

/-- The page has a table. -/
def PgDir.HasTable (d : PgDir) (v : Nat) : Prop := (d.pde (tableOf v)).isSome = true

instance (d : PgDir) (v : Nat) : Decidable (d.HasTable v) := inferInstanceAs (Decidable (_ = _))

/-- The entry for a page; it is zero without a table. -/
def PgDir.entry (d : PgDir) (v : Nat) : UInt32 :=
  (d.pde (tableOf v)).elim 0 fun t => t.pte (Fin.ofNat 1024 v)

section
variable {d : PgDir} {va x page : UInt32} {v : Nat}

theorem PDX_eq_tableOf (va : UInt32) : PDX va = tableOf (vpn va) := PDX_eq va

theorem PgDir.pte_eq : d.pte va = d.entry (vpn va) := by
  rw [pte, entry, PDX_eq_tableOf, PTX_eq]

/-- Two pages with one table. -/
theorem tableOf_inj {w : Nat} (hv : v < 1048576) (hw : w < 1048576) :
    tableOf v = tableOf w ↔ v / 1024 = w / 1024 := by
  rw [tableOf, tableOf, Fin.ext_iff, Fin.val_ofNat, Fin.val_ofNat]
  omega

theorem PgDir.hasTable_of_present (h : Present (d.entry v)) : d.HasTable v := by
  rw [HasTable]
  cases hd : d.pde (tableOf v) with
  | none =>
    rw [entry, hd] at h
    exact absurd h not_present_zero
  | some t => rfl

theorem PgDir.hasTable_setPte : (d.setPte va x).HasTable v ↔ d.HasTable v := by
  rw [HasTable, HasTable, setPte]
  dsimp only
  by_cases hv : tableOf v = PDX va
  · rw [hv, update_self, Option.isSome_map]
  · rw [update_of_ne hv]

/-- An assignment changes one entry. -/
theorem PgDir.entry_setPte (ht : d.HasTable (vpn va)) (hv : v < 1048576) :
    (d.setPte va x).entry v = update d.entry (vpn va) x v := by
  have hva := vpn_lt va
  obtain ⟨t, ht⟩ := Option.isSome_iff_exists.1 ht
  rw [entry, setPte, PDX_eq_tableOf, PTX_eq]
  dsimp only
  by_cases htab : tableOf v = tableOf (vpn va)
  · rw [htab, update_self, ht]
    dsimp only [Option.map_some, Option.elim]
    by_cases he : v = vpn va
    · rw [he, update_self, update_self]
    · have hne : Fin.ofNat 1024 v ≠ Fin.ofNat 1024 (vpn va) := by
        rw [tableOf_inj hv hva] at htab
        rw [Ne, Fin.ext_iff, Fin.val_ofNat, Fin.val_ofNat]
        omega
      rw [update_of_ne hne, update_of_ne he, entry, htab, ht]
      rfl
  · have he : v ≠ vpn va := by
      rintro rfl
      exact htab rfl
    rw [update_of_ne htab, update_of_ne he, entry]

theorem PgDir.hasTable_addTable (hv : v < 1048576) :
    (d.addTable va page).HasTable v ↔ d.HasTable v ∨ v / 1024 = vpn va / 1024 := by
  rw [HasTable, HasTable, addTable, ← tableOf_inj hv (vpn_lt va), PDX_eq_tableOf]
  dsimp only
  by_cases h : tableOf v = tableOf (vpn va)
  · rw [h, update_self]
    simp
  · rw [update_of_ne h]
    simp [h]

/-- A new table maps nothing. -/
theorem PgDir.entry_addTable (ht : ¬ d.HasTable (vpn va)) :
    (d.addTable va page).entry v = d.entry v := by
  rw [entry, entry, addTable, PDX_eq_tableOf]
  dsimp only
  by_cases h : tableOf v = tableOf (vpn va)
  · rw [HasTable, Bool.not_eq_true, Option.isSome_eq_false_iff, Option.isNone_iff_eq_none] at ht
    rw [h, update_self, ht]
    rfl
  · rw [update_of_ne h]

@[simp] theorem PgDir.entry_empty : (PgDir.empty page).entry v = 0 := rfl

@[simp] theorem PgDir.not_hasTable_empty : ¬ (PgDir.empty page).HasTable v := nofun

end

end TronBoss.Vm
