import Mathlib.Data.Fintype.BigOperators
import TronBoss.Vm.PageTable

/-!
# What the page tables own

The pages of a directory are its own page, those of its tables, and the user pages that it maps. The
specifications of `walkpgdir` and of `mappages` of one page say which entries change; the tables that
they add come from the free list.
-/

namespace TronBoss.Vm

open Lib Function Finset

/-! ## The pages of a directory -/

/-- The page that an entry maps. -/
def ptePage (pte : UInt32) : Multiset UInt32 := if Present pte then {PTE_ADDR pte} else 0

/-- The pages of the tables. -/
@[irreducible] def PgDir.tablePages (d : PgDir) : Multiset UInt32 := ∑ i, (d.pde i).elim 0 fun t => {t.page}

/-- The pages that are mapped below the kernel. -/
@[irreducible] def PgDir.userPages (d : PgDir) : Multiset UInt32 :=
  ∑ v ∈ Finset.range userPageCount, ptePage (d.entry v)

/-- All pages that the directory owns. -/
def PgDir.pages (d : PgDir) : Multiset UInt32 := {d.page} + d.tablePages + d.userPages

theorem ptePage_of_present {pte : UInt32} (h : Present pte) : ptePage pte = {PTE_ADDR pte} :=
  if_pos h

theorem ptePage_of_not_present {pte : UInt32} (h : ¬ Present pte) : ptePage pte = 0 := if_neg h

section
variable {d d' : PgDir} {va x page : UInt32} {v : Nat}

theorem userPageCount_lt (hv : v < userPageCount) : v < 1048576 := by
  rw [userPageCount] at hv
  omega

@[simp] theorem PgDir.tablePages_setPte : (d.setPte va x).tablePages = d.tablePages := by
  unfold tablePages
  refine sum_congr rfl fun i _ => ?_
  rw [setPte]
  dsimp only
  by_cases h : i = PDX va
  · rw [h, update_self]
    cases d.pde (PDX va) with
    | none | some t => rfl
  · rw [update_of_ne h]

theorem PgDir.tablePages_addTable (ht : ¬ d.HasTable (vpn va)) :
    (d.addTable va page).tablePages = d.tablePages + {page} := by
  rw [HasTable, Bool.not_eq_true, Option.isSome_eq_false_iff, Option.isNone_iff_eq_none,
    ← PDX_eq_tableOf] at ht
  unfold tablePages
  rw [← add_sum_erase _ _ (mem_univ (PDX va)),
    ← add_sum_erase univ _ (mem_univ (PDX va)), addTable]
  dsimp only
  rw [update_self, ht, add_comm]
  refine congrArg₂ _ ?_ rfl
  rw [Option.elim, zero_add]
  refine sum_congr rfl fun i hi => ?_
  rw [update_of_ne (ne_of_mem_erase hi)]

@[simp] theorem PgDir.tablePages_empty : (PgDir.empty page).tablePages = 0 := by
  unfold tablePages
  simp [empty]

/-- One entry below the kernel changes. -/
theorem PgDir.userPages_update {w : Nat} (hw : w < userPageCount)
    (h : ∀ v < userPageCount, d'.entry v = update d.entry w x v) :
    d'.userPages + ptePage (d.entry w) = d.userPages + ptePage x := by
  have hmem := mem_range.2 hw
  have hrest : ∑ v ∈ (Finset.range userPageCount).erase w, ptePage (d'.entry v) =
      ∑ v ∈ (Finset.range userPageCount).erase w, ptePage (d.entry v) := by
    refine sum_congr rfl fun v hv => ?_
    rw [h v (mem_range.1 (mem_of_mem_erase hv)),
      update_of_ne (ne_of_mem_erase hv)]
  unfold userPages
  rw [← add_sum_erase _ _ hmem, hrest, h w hw, update_self,
    ← add_sum_erase (Finset.range userPageCount) (fun v => ptePage (d.entry v)) hmem]
  rw [add_comm (ptePage x), add_comm (ptePage (d.entry w)), add_right_comm]

/-- A page of a directory is that of an entry. -/
theorem PgDir.mem_userPages {pa : UInt32} : pa ∈ d.userPages ↔
    ∃ v < userPageCount, Present (d.entry v) ∧ PTE_ADDR (d.entry v) = pa := by
  unfold userPages
  rw [Multiset.mem_sum]
  constructor
  · rintro ⟨v, hv, hpa⟩
    rw [ptePage] at hpa
    split at hpa
    · exact ⟨v, mem_range.1 hv, ‹_›, (Multiset.mem_singleton.1 hpa).symm⟩
    · exact absurd hpa (Multiset.notMem_zero _)
  · rintro ⟨v, hv, hp, rfl⟩
    refine ⟨v, mem_range.2 hv, ?_⟩
    rw [ptePage_of_present hp]
    exact Multiset.mem_singleton_self _

/-- If no page is owned twice, the pages that two entries map are not the same. -/
theorem PgDir.eq_of_addr {w : Nat} (h : d.userPages.Nodup) (hv : v < userPageCount)
    (hw : w < userPageCount) (hpv : Present (d.entry v)) (hpw : Present (d.entry w))
    (he : PTE_ADDR (d.entry v) = PTE_ADDR (d.entry w)) : v = w := by
  by_contra hne
  unfold userPages at h
  rw [← add_sum_erase _ _ (mem_range.2 hv), ptePage_of_present hpv,
    Multiset.singleton_add, Multiset.nodup_cons] at h
  have hmem := mem_erase.2 ⟨Ne.symm hne, mem_range.2 hw⟩
  refine h.1 ?_
  rw [Multiset.mem_sum]
  refine ⟨w, hmem, ?_⟩
  rw [ptePage_of_present hpw, he]
  exact Multiset.mem_singleton_self _

end

/-! ## `walkpgdir` and `mappages` -/

section
variable {E : Stop → Prop} {m m' : Mem} {d d' : PgDir} {va pa perm : UInt32}

theorem sat_walkpgdir {Q : Option PgDir → Mem → Prop} (hold : d.HasTable (vpn va) → Q (some d) m)
    (hnone : ¬ d.HasTable (vpn va) → Q none m.asked)
    (hnew : ¬ d.HasTable (vpn va) → ∀ page next, m.freelist = page :: next →
      Q (some (d.addTable va page)) (m.asked.setFree next)) :
    Sat E (walkpgdir d va true) m Q := by
  rw [PgDir.HasTable, ← PDX_eq_tableOf] at hold hnone hnew
  rw [walkpgdir]
  refine Sat.ite hold fun ht => Sat.ite (by rintro ⟨⟩) fun _ => ?_
  rw [sat_bind]
  exact sat_kalloc (hnone ht) (hnew ht)

/-- Tables are added to a directory. What its entries map is another matter. -/
structure Grown (m : Mem) (d : PgDir) (m' : Mem) (d' : PgDir) : Prop where
  table : ∀ v < 1048576, d.HasTable v → d'.HasTable v
  free : m'.freelist <:+ m.freelist
  frame : m'.frame = m.frame

/-- `mappages` of one page has one turn. -/
theorem mappages_eq (ha : Aligned va) :
    mappages d va PGSIZE pa perm = mapLoop perm va (1048576 + 1) d va pa := by
  have hlast : PGROUNDDOWN (va + PGSIZE - 1) = va := by
    have hlt := va.toNat_lt
    rw [← UInt32.toNat_inj, toNat_PGROUNDDOWN, UInt32.toNat_sub, UInt32.toNat_add, toNat_PGSIZE,
      UInt32.toNat_one]
    rw [Aligned] at ha
    omega
  unfold mappages
  rw [hlast, ha.PGROUNDDOWN_eq]
  rfl

/-- `mappages` of one page: the entry is set, or there is no page for its table. -/
theorem sat_mappages {Q : PgDir × Int → Mem → Prop} (ha : Aligned va)
    (hnot : ¬ Present (d.entry (vpn va)) ∨ E (.panic "remap"))
    (hfail : ¬ d.HasTable (vpn va) → Q (d, -1) m.asked)
    (hok : ¬ Present (d.entry (vpn va)) → ∀ d' m', Grown m d m' d' → (∀ v < 1048576, d'.entry v =
        update d.entry (vpn va) (pa ||| perm ||| PTE_P) v) → Q (d', 0) m') :
    Sat E (mappages d va PGSIZE pa perm) m Q := by
  rw [mappages_eq ha, mapLoop, sat_bind]
  refine sat_walkpgdir (fun ht => ?_) hfail fun ht page next hm => ?_
  · rw [sat_panicIf_bind, PgDir.pte_eq]
    refine ⟨fun hp => hnot.resolve_left fun h => h hp, fun hnp => Sat.ite (fun _ => ?_) (absurd rfl)⟩
    exact hok hnp _ _ ⟨fun _ _ => PgDir.hasTable_setPte.2, List.suffix_rfl, rfl⟩
      fun v hv => PgDir.entry_setPte ht hv
  · have ht' : (d.addTable va page).HasTable (vpn va) :=
      (PgDir.hasTable_addTable (vpn_lt va)).2 (.inr rfl)
    rw [sat_panicIf_bind, PgDir.pte_eq, PgDir.entry_addTable ht]
    refine ⟨fun hp => hnot.resolve_left fun h => h hp, fun hnp => Sat.ite (fun _ => ?_) (absurd rfl)⟩
    refine hok hnp _ _ ⟨fun v hv h => ?_, hm ▸ List.suffix_cons .., rfl⟩ fun v hv => ?_
    · rw [PgDir.hasTable_setPte, PgDir.hasTable_addTable hv]
      exact .inl h
    · rw [PgDir.entry_setPte ht' hv]
      by_cases he : v = vpn va
      · rw [he, update_self, update_self]
      · rw [update_of_ne he, update_of_ne he, PgDir.entry_addTable ht]

/-- A page that has its table is mapped without a call of `kalloc`. -/
theorem sat_mappages_of_table (ha : Aligned va) (ht : d.HasTable (vpn va))
    (hnot : ¬ Present (d.entry (vpn va))) : Sat E (mappages d va PGSIZE pa perm) m
      fun r m' => r = (d.setPte va (pa ||| perm ||| PTE_P), 0) ∧ m' = m := by
  rw [PgDir.HasTable, ← PDX_eq_tableOf] at ht
  rw [mappages_eq ha, mapLoop, walkpgdir, if_pos ht, sat_pure_bind]
  rw [sat_panicIf_bind, PgDir.pte_eq]
  exact ⟨fun hp => absurd hp hnot, fun _ => Sat.ite (fun _ => ⟨rfl, rfl⟩) fun hne => absurd rfl hne⟩

/-- A page without a table is not mapped when `kalloc` refuses one. -/
theorem sat_mappages_refused (ha : Aligned va) (ht : ¬ d.HasTable (vpn va))
    (h : m.refuse.headD false = true) : Sat E (mappages d va PGSIZE pa perm) m
      fun r m' => r = (d, -1) ∧ m' = m.asked := by
  rw [PgDir.HasTable, ← PDX_eq_tableOf] at ht
  rw [mappages_eq ha, mapLoop, walkpgdir, if_neg ht, if_neg (by decide), sat_bind, sat_bind,
    sat_of_eq_ok (kalloc_refused h)]
  exact ⟨rfl, rfl⟩

end

end TronBoss.Vm
