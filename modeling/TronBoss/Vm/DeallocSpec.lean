import Mathlib.Algebra.BigOperators.Fin
import Mathlib.Tactic.Abel
import TronBoss.Vm.PageTableSpec
import TronBoss.Vm.Uvm

/-!
# What `deallocuvm` does

`deallocuvm` skips the rest of a table that is not there, and from a page in the middle of it that is
also the start of the next one. It finds every page all the same if it starts at the first page of a
table, or in a table that is there; this is the case for the sizes of processes, which have the tables
for all pages below their size.
-/

namespace TronBoss.Vm

open Lib Function Finset

/-- The pages that are free or held are pages of the allocator. -/
def Valid (img : KernelImage) (m : Mem) (h : Multiset UInt32) : Prop :=
  ∀ pa ∈ (m.freelist : Multiset UInt32) + h, img.Page pa

theorem lt_iff_vpn_lt {a sz : UInt32} (ha : Aligned a) : a < sz ↔ vpn a < npages sz := by
  rw [UInt32.lt_iff_toNat_lt, ha.toNat_eq, npages]
  omega

/-! ## The pages that the loop gets to -/

section
variable {E : Stop → Prop} {img : KernelImage} {m m' : Mem} {d d' : PgDir} {a oldsz newsz : UInt32}
  {lo hi v : Nat}

/-- The first page of the next table. -/
theorem vpn_skip {a : UInt32} (h : vpn a < userPageCount) :
    vpn (a + (UInt32.ofNat NPTENTRIES - 1) * PGSIZE + PGSIZE) = vpn a + 1024 ∧
      (Aligned a → Aligned (a + (UInt32.ofNat NPTENTRIES - 1) * PGSIZE + PGSIZE)) := by
  have hs : ((UInt32.ofNat NPTENTRIES - 1) * PGSIZE).toNat = 4190208 := rfl
  have hadd : (a + (UInt32.ofNat NPTENTRIES - 1) * PGSIZE + PGSIZE).toNat = a.toNat + 4194304 := by
    rw [vpn, userPageCount] at h
    rw [UInt32.toNat_add, UInt32.toNat_add, hs, toNat_PGSIZE]
    omega
  rw [vpn, vpn, Aligned, Aligned, hadd]
  omega

/-- The next page starts a table, or has that of the page. -/
theorem hasTable_next (hv : v + 1 < 1048576) (ht : d.HasTable v) :
    (v + 1) % 1024 = 0 ∨ d.HasTable (v + 1) := by
  by_cases h : (v + 1) % 1024 = 0
  · exact .inl h
  · right
    rw [PgDir.HasTable, (tableOf_inj hv (by omega)).2 (show (v + 1) / 1024 = v / 1024 by omega)]
    exact ht

/-- The pages that the loop of `deallocuvm` looks at from `v` on. -/
inductive PgDir.Visits (d : PgDir) : Nat → Nat → Prop where
  | here (v : Nat) : Visits d v v
  | next {v w : Nat} : d.HasTable v → Visits d (v + 1) w → Visits d v w
  | skip {v w : Nat} : ¬ d.HasTable v → Visits d (v + 1024) w → Visits d v w

theorem PgDir.Visits.le {w : Nat} (h : d.Visits v w) : v ≤ w := by
  induction h with
  | here => exact le_rfl
  | next _ _ ih | skip _ _ ih => omega

theorem PgDir.Visits.congr {w : Nat} (ht : ∀ v, d'.HasTable v ↔ d.HasTable v)
    (h : d.Visits v w) : d'.Visits v w := by
  induction h with
  | here => exact .here _
  | next hv _ ih => exact .next ((ht _).2 hv) ih
  | skip hv _ ih => exact .skip (fun h => hv ((ht _).1 h)) ih

/-- The pages after a page that has its table. -/
theorem PgDir.visits_next {w : Nat} (ht : d.HasTable v) (hne : w ≠ v) :
    d.Visits v w ↔ d.Visits (v + 1) w := by
  refine ⟨fun h => ?_, .next ht⟩
  cases h with
  | here => exact absurd rfl hne
  | next _ h => exact h
  | skip hno _ => exact absurd ht hno

/-- The mapped pages after a page that has no table. -/
theorem PgDir.visits_skip {w : Nat} (hno : ¬ d.HasTable v) (hp : Present (d.entry w)) :
    d.Visits v w ↔ d.Visits (v + 1024) w := by
  refine ⟨fun h => ?_, .skip hno⟩
  cases h with
  | here => exact absurd (PgDir.hasTable_of_present hp) hno
  | next ht _ => exact absurd ht hno
  | skip _ h => exact h

/-- From the start of a table, or in a table that is there, no mapped page is missed. -/
theorem PgDir.Visits.of_present (n : Nat) : ∀ {v w : Nat}, w - v < n → v ≤ w → w < 1048576 →
    (v % 1024 = 0 ∨ d.HasTable v) → Present (d.entry w) → d.Visits v w := by
  induction n with
  | zero =>
    intro v w hlt
    exact absurd hlt (Nat.not_lt_zero _)
  | succ n ih =>
    intro v w hlt hle hw hstart hp
    by_cases he : v = w
    · exact he ▸ .here v
    by_cases ht : d.HasTable v
    · exact .next ht (ih (by omega) (by omega) hw (hasTable_next (by omega) ht) hp)
    have halign := hstart.resolve_right ht
    refine .skip ht (ih (by omega) ?_ hw (.inl (by omega)) hp)
    -- a page of the table that is not there is not mapped
    by_contra hlt'
    refine ht ?_
    rw [PgDir.HasTable, (tableOf_inj (by omega) hw).2 (show v / 1024 = w / 1024 by omega)]
    exact PgDir.hasTable_of_present hp

/-- The mapped pages among `S` were unmapped, and no others. -/
structure PgDir.Cleared (d : PgDir) (S : Nat → Prop) (d' : PgDir) : Prop where
  cleared : ∀ v < 1048576, S v → Present (d.entry v) → d'.entry v = 0
  kept : ∀ v < 1048576, ¬ (S v ∧ Present (d.entry v)) → d'.entry v = d.entry v

theorem PgDir.Cleared.present {S : Nat → Prop} (h : d.Cleared S d') (hv : v < 1048576) :
    Present (d'.entry v) ↔ ¬ S v ∧ Present (d.entry v) := by
  by_cases hc : S v ∧ Present (d.entry v)
  · rw [h.cleared v hv hc.1 hc.2]
    exact iff_of_false not_present_zero fun h => h.1 hc.1
  · rw [h.kept v hv hc]
    exact ⟨fun hp => ⟨fun hs => hc ⟨hs, hp⟩, hp⟩, And.right⟩

/-! ## The loop -/

/-- What the loop of `deallocuvm` does to the pages from `lo` up to `hi`. -/
structure Dealloc (img : KernelImage) (m : Mem) (d : PgDir) (lo hi : Nat) (m' : Mem) (d' : PgDir) :
    Prop where
  table : ∀ v, d'.HasTable v ↔ d.HasTable v
  pages : (m'.freelist : Multiset UInt32) + d'.userPages = m.freelist + d.userPages
  frame : ∀ pa, (∀ v, lo ≤ v → v < hi → Present (d.entry v) → PTE_ADDR (d.entry v) ≠ pa) →
    m'.frame pa = m.frame pa
  cleared : d.Cleared (fun v => d.Visits lo v ∧ v < hi) d'
  valid : ∀ v, d.Visits lo v → v < hi → Present (d.entry v) → img.Page (PTE_ADDR (d.entry v))

theorem Dealloc.done (h : hi ≤ lo) : Dealloc img m d lo hi m d := by
  have hnone (v) (hvis : d.Visits lo v) (hv : v < hi) : False := by
    have := hvis.le
    omega
  exact ⟨fun _ => Iff.rfl, rfl, fun _ _ => rfl,
    ⟨fun v _ h => (hnone v h.1 h.2).elim, fun _ _ _ => rfl⟩, fun v hvis hv => (hnone v hvis hv).elim⟩

/-- The loop goes on at a later page, and there is no mapped page in between. -/
theorem Dealloc.later {lo' : Nat} (h : Dealloc img m d lo' hi m' d') (hle : lo ≤ lo')
    (hvis : ∀ v, Present (d.entry v) → (d.Visits lo v ↔ d.Visits lo' v)) :
    Dealloc img m d lo hi m' d' where
  table := h.table
  pages := h.pages
  frame pa hpa := h.frame pa fun v hv => hpa v (hle.trans hv)
  cleared := ⟨fun v hv hs hp => h.cleared.cleared v hv ⟨(hvis v hp).1 hs.1, hs.2⟩ hp, fun v hv hc =>
    h.cleared.kept v hv fun hs => hc ⟨⟨(hvis v hs.2).2 hs.1.1, hs.1.2⟩, hs.2⟩⟩
  valid v hv hlt hp := h.valid v ((hvis v hp).1 hv) hlt hp

/-- A mapped page is freed and its entry cleared, and then the loop goes on. -/
theorem Dealloc.free {pa : UInt32} (hhi : hi ≤ userPageCount) (hin : vpn a < hi)
    (hp : Present (d.entry (vpn a))) (hpa : pa = PTE_ADDR (d.entry (vpn a))) (hpg : img.Page pa)
    (h : Dealloc img ((m.fill pa 1).setFree (pa :: m.freelist)) (d.setPte a 0) (vpn a + 1) hi m' d') :
    Dealloc img m d (vpn a) hi m' d' := by
  have ht := PgDir.hasTable_of_present hp
  have hsame (v) (hv : v < 1048576) (hne : v ≠ vpn a) : (d.setPte a 0).entry v = d.entry v := by
    rw [PgDir.entry_setPte ht hv, update_of_ne hne]
  have hself : (d.setPte a 0).entry (vpn a) = 0 := by
    rw [PgDir.entry_setPte ht (vpn_lt a), update_self]
  have htab (v) : (d.setPte a 0).HasTable v ↔ d.HasTable v := PgDir.hasTable_setPte
  have hvis (v) (hne : v ≠ vpn a) : d.Visits (vpn a) v ↔ (d.setPte a 0).Visits (vpn a + 1) v :=
    (PgDir.visits_next ht hne).trans ⟨.congr htab, .congr fun v => (htab v).symm⟩
  have hlt (v) (hv : v < hi) : v < 1048576 := userPageCount_lt (hv.trans_le hhi)
  refine ⟨fun v => (h.table v).trans (htab v), ?_, fun pa' hpa' => ?_,
    ⟨fun v hv hs hpv => ?_, fun v hv hc => ?_⟩, fun v hv hvi hpv => ?_⟩
  · have hu := PgDir.userPages_update (hin.trans_le hhi) fun v hv =>
      PgDir.entry_setPte (x := 0) ht (userPageCount_lt hv)
    rw [ptePage_of_present hp, ptePage_of_not_present not_present_zero, add_zero, ← hpa] at hu
    rw [h.pages, ← hu, Mem.setFree, ← Multiset.cons_coe, ← Multiset.singleton_add]
    abel
  · rw [h.frame pa' fun v hle hv hpv => ?_]
    · exact update_of_ne (hpa ▸ hpa' _ le_rfl hin hp).symm ..
    · rw [hsame v (hlt v hv) (by omega)] at hpv ⊢
      exact hpa' v (by omega) hv hpv
  · by_cases hva : v = vpn a
    · subst hva
      rw [h.cleared.kept _ hv fun hs => not_present_zero (hself ▸ hs.2), hself]
    · exact h.cleared.cleared v hv ⟨(hvis v hva).1 hs.1, hs.2⟩ (by rwa [hsame v hv hva])
  · have hne : v ≠ vpn a := by
      rintro rfl
      exact hc ⟨⟨.here _, hin⟩, hp⟩
    rw [h.cleared.kept v hv fun hs => hc ⟨⟨(hvis v hne).2 hs.1.1, hs.1.2⟩, hsame v hv hne ▸ hs.2⟩,
      hsame v hv hne]
  · by_cases hva : v = vpn a
    · rwa [hva, ← hpa]
    · rw [← hsame v (hlt v hvi) hva] at hpv ⊢
      exact h.valid v ((hvis v hva).1 hv) hvi hpv

/-- The loop of `deallocuvm`. -/
theorem sat_deallocLoop (hold : npages oldsz ≤ userPageCount) (fuel : Nat) :
    ∀ {d : PgDir} {m : Mem} {a : UInt32}, Aligned a → npages oldsz - vpn a < fuel →
    (∀ v, vpn a ≤ v → v < npages oldsz → Present (d.entry v) → img.Page (PTE_ADDR (d.entry v))) ∨
      E (.panic "kfree") →
    Sat E (deallocLoop img oldsz fuel d a) m fun d' m' =>
      Dealloc img m d (vpn a) (npages oldsz) m' d' := by
  induction fuel with
  | zero =>
    intro d m a _ hlt
    exact absurd hlt (Nat.not_lt_zero _)
  | succ k ih =>
    intro d m a ha hlt hpage
    rw [deallocLoop]
    refine Sat.ite (fun hin => ?_) fun hout => .done (Nat.not_lt.1 fun h => hout ((lt_iff_vpn_lt ha).2 h))
    rw [lt_iff_vpn_lt ha] at hin
    have huser : vpn a < userPageCount := hin.trans_le hold
    have hnext : vpn (a + PGSIZE) = vpn a + 1 := vpn_add_PGSIZE (by rw [userPageCount] at huser; omega)
    refine Sat.ite (fun htab => ?_) fun htab => Sat.ite (fun hp => ?_) fun hp => ?_
    · have hno : ¬ d.HasTable (vpn a) := by
        rw [PDX_eq_tableOf, Option.isNone_iff_eq_none] at htab
        simp [PgDir.HasTable, htab]
      obtain ⟨hskip, haskip⟩ := vpn_skip huser
      refine (ih (haskip ha) (by omega) (hpage.imp_left fun h v hv => h v (by omega))).weaken
        fun d' m' h => ?_
      rw [hskip] at h
      exact h.later (Nat.le_add_right ..) fun v hp => PgDir.visits_skip hno hp
    · rw [PgDir.pte_eq] at hp ⊢
      have hpg := hpage.imp_left fun h => h _ le_rfl hin hp
      rw [sat_panicIf_bind]
      refine ⟨fun h0 => hpg.resolve_left fun h => h.ne_zero h0, fun _ => ?_⟩
      rw [sat_bind]
      refine sat_kfree hpg fun hpg => ?_
      refine (ih ha.add_PGSIZE (by omega) (hpage.imp_left fun h v hle hv hpv => ?_)).weaken
        fun d' m' h => ?_
      · have hne : v ≠ vpn a := by omega
        rw [PgDir.entry_setPte (PgDir.hasTable_of_present hp) (userPageCount_lt (hv.trans_le hold)),
          update_of_ne hne] at hpv ⊢
        exact h v (by omega) hv hpv
      · rw [hnext] at h
        exact h.free hold hin hp rfl hpg
    · rw [PgDir.pte_eq] at hp
      have ht : d.HasTable (vpn a) := by
        rwa [PDX_eq_tableOf, Option.isNone_iff_eq_none, ← Ne, Option.ne_none_iff_isSome] at htab
      refine (ih ha.add_PGSIZE (by omega) (hpage.imp_left fun h v hv => h v (by omega))).weaken
        fun d' m' h => ?_
      rw [hnext] at h
      refine h.later (Nat.le_succ _) fun v hpv => PgDir.visits_next ht ?_
      rintro rfl
      exact hp hpv

theorem npages_le {sz : UInt32} (h : sz ≤ KERNBASE) : npages sz ≤ userPageCount := by
  rw [UInt32.le_iff_toNat_le, toNat_KERNBASE] at h
  rw [npages, userPageCount]
  omega

theorem npages_mono {sz sz' : UInt32} (h : sz ≤ sz') : npages sz ≤ npages sz' := by
  rw [UInt32.le_iff_toNat_le] at h
  rw [npages, npages]
  omega

theorem vpn_PGROUNDUP {sz : UInt32} (h : sz ≤ KERNBASE) : vpn (PGROUNDUP sz) = npages sz := by
  rw [vpn, toNat_PGROUNDUP_of_le h]
  omega

/-- The page after the last one that has a table starts a table, or has one too. -/
theorem PgDir.start_of_tables {lim : Nat} (h : ∀ w < lim, d.HasTable w) (hlim : lim ≤ userPageCount)
    (hv : v ≤ lim) : v % 1024 = 0 ∨ d.HasTable v := by
  cases v with
  | zero => exact .inl rfl
  | succ v =>
    rw [userPageCount] at hlim
    exact hasTable_next (by omega) (h v (by omega))

/-- `deallocuvm` clears the entries between the two sizes and frees their pages. -/
theorem sat_deallocuvm (hold : oldsz ≤ KERNBASE)
    (hpage : (∀ v, npages newsz ≤ v → v < npages oldsz → Present (d.entry v) →
      img.Page (PTE_ADDR (d.entry v))) ∨ E (.panic "kfree")) :
    Sat E (deallocuvm img d oldsz newsz) m fun r m' =>
      Dealloc img m d (npages newsz) (npages oldsz) m' r.1 ∧
        r.2 = if newsz ≥ oldsz then oldsz else newsz := by
  unfold deallocuvm
  refine Sat.ite (fun hge => ⟨.done (npages_mono hge), (if_pos hge).symm⟩) fun hlt => ?_
  have hle : newsz ≤ oldsz := UInt32.le_of_lt (UInt32.not_le.1 hlt)
  have hnew : vpn (PGROUNDUP newsz) = npages newsz := vpn_PGROUNDUP (UInt32.le_trans hle hold)
  have hfuel : npages oldsz - vpn (PGROUNDUP newsz) < turns := by
    have := npages_le hold
    rw [userPageCount] at this
    rw [turns]
    omega
  rw [← hnew] at hpage ⊢
  exact (sat_deallocLoop (npages_le hold) turns (aligned_PGROUNDUP _) hfuel hpage).bind
    fun d' m' h => ⟨h, (if_neg hlt).symm⟩

/-- From the start of a table, or in one that is there, all mapped pages in the range go. -/
theorem PgDir.Cleared.range {lo hi : Nat}
    (h : d.Cleared (fun v => d.Visits lo v ∧ v < hi) d') (hstart : lo % 1024 = 0 ∨ d.HasTable lo) :
    d.Cleared (fun v => lo ≤ v ∧ v < hi) d' := by
  refine ⟨fun v hv ⟨hlo, hhi⟩ hp => h.cleared v hv ⟨?_, hhi⟩ hp, fun v hv hc => h.kept v hv fun hv' =>
    hc ⟨⟨hv'.1.1.le, hv'.1.2⟩, hv'.2⟩⟩
  exact .of_present (v - lo + 1) (Nat.lt_succ_self _) hlo hv hstart hp

/-- The mapped pages that the loop gets to: all of them, unless it skips from the middle of a table
to the middle of the next one that is there. -/
theorem PgDir.visits_iff {lo : Nat} (hlo : lo ≤ v) (hv : v < 1048576) (hp : Present (d.entry v)) :
    d.Visits lo v ↔ lo % 1024 = 0 ∨ ∃ k, lo + 1024 * k ≤ v ∧ d.HasTable (lo + 1024 * k) := by
  constructor
  · intro h
    induction h with
    | here => exact .inr ⟨0, le_rfl, hasTable_of_present hp⟩
    | next ht _ _ => exact .inr ⟨0, hlo, ht⟩
    | @skip lo v _ h ih =>
      rcases ih h.le hv hp with h0 | ⟨k, hk, ht⟩
      · exact .inl (by omega)
      · refine .inr ⟨k + 1, by omega, ?_⟩
        rwa [show lo + 1024 * (k + 1) = lo + 1024 + 1024 * k by omega]
  · rintro (h0 | ⟨k, hk, ht⟩)
    · exact .of_present (v - lo + 1) (Nat.lt_succ_self _) hlo hv (.inl h0) hp
    · induction k generalizing lo with
      | zero => exact .of_present (v - lo + 1) (Nat.lt_succ_self _) hlo hv (.inr ht) hp
      | succ k ih =>
        by_cases htab : d.HasTable lo
        · exact .of_present (v - lo + 1) (Nat.lt_succ_self _) hlo hv (.inr htab) hp
        · have heq : lo + 1024 + 1024 * k = lo + 1024 * (k + 1) := by omega
          rw [← heq] at hk ht
          have hle : lo + 1024 ≤ v := (Nat.le_add_right ..).trans hk
          exact .skip htab (ih hle hk ht)

/-- The pages that are given back when a range is unmapped. -/
theorem PgDir.Cleared.userPages {lo hi : Nat} (h : d.Cleared (fun v => lo ≤ v ∧ v < hi) d')
    (hhi : hi ≤ userPageCount) :
    d.userPages = d'.userPages + ∑ v ∈ Finset.Ico lo hi, ptePage (d.entry v) := by
  have hsub : Finset.Ico lo hi ⊆ Finset.range userPageCount := by
    intro v hv
    have hlt := (mem_Ico.1 hv).2.trans_le hhi
    exact mem_range.2 hlt
  have hsplit (e : PgDir) : e.userPages = ∑ v ∈ Finset.range userPageCount \ Finset.Ico lo hi,
      ptePage (e.entry v) + ∑ v ∈ Finset.Ico lo hi, ptePage (e.entry v) := by
    unfold PgDir.userPages
    exact (sum_sdiff hsub).symm
  have hrange : ∑ v ∈ Finset.Ico lo hi, ptePage (d'.entry v) = 0 := by
    refine sum_eq_zero fun v hv => ptePage_of_not_present fun hp => ?_
    have hlt := userPageCount_lt (mem_range.1 (hsub hv))
    exact ((h.present hlt).1 hp).1 (mem_Ico.1 hv)
  have hrest : ∑ v ∈ Finset.range userPageCount \ Finset.Ico lo hi, ptePage (d'.entry v) =
      ∑ v ∈ Finset.range userPageCount \ Finset.Ico lo hi, ptePage (d.entry v) := by
    refine sum_congr rfl fun v hv => ?_
    obtain ⟨hv, hout⟩ := mem_sdiff.1 hv
    rw [h.kept v (userPageCount_lt (mem_range.1 hv)) fun hc => hout (mem_Ico.2 hc.1)]
  rw [hsplit d, hsplit d', hrange, hrest, add_zero]

/-- `deallocuvm` frees and unmaps the mapped pages from `newsz` to `oldsz`, each once, and nothing
else, exactly if `kfree` takes each of them and its loop does not skip one: from a page in the middle
of a table that is not there, it goes on in the middle of the next table. -/
theorem deallocuvm_precise_iff (hlt : newsz < oldsz) (hold : oldsz ≤ KERNBASE) :
    (∃ d' m', deallocuvm img d oldsz newsz m = .ok ((d', newsz), m') ∧
      d.Cleared (fun v => npages newsz ≤ v ∧ v < npages oldsz) d' ∧
      (m'.freelist : Multiset UInt32) =
        m.freelist + ∑ v ∈ Finset.Ico (npages newsz) (npages oldsz), ptePage (d.entry v)) ↔
    ∀ v, npages newsz ≤ v → v < npages oldsz → Present (d.entry v) →
      img.Page (PTE_ADDR (d.entry v)) ∧ (npages newsz % 1024 = 0 ∨
        ∃ k, npages newsz + 1024 * k ≤ v ∧ d.HasTable (npages newsz + 1024 * k)) := by
  have hhi := npages_le hold
  constructor
  · rintro ⟨d', m', hrun, hcl, -⟩ v hlo hv hp
    have hv' := userPageCount_lt (hv.trans_le hhi)
    obtain ⟨hd, -⟩ := (sat_deallocuvm (E := fun _ => True) hold (.inr trivial)).of_ok hrun
    have hvis : d.Visits (npages newsz) v := by
      by_contra hno
      have hzero := hcl.cleared v hv' ⟨hlo, hv⟩ hp
      rw [hd.cleared.kept v hv' fun h => hno h.1.1] at hzero
      exact not_present_zero (hzero ▸ hp)
    exact ⟨hd.valid v hvis hv hp, (PgDir.visits_iff hlo hv' hp).1 hvis⟩
  · intro h
    obtain ⟨⟨d', r⟩, m', hrun, hd, hr⟩ :=
      (sat_deallocuvm (E := fun _ => False) (m := m) hold
        (.inl fun v hlo hv hp => (h v hlo hv hp).1)).returns
    have hr' : r = newsz := hr.trans (if_neg (UInt32.not_le.2 hlt))
    rw [hr'] at hrun
    have hcl' : d.Cleared (fun v => npages newsz ≤ v ∧ v < npages oldsz) d' := by
      refine ⟨fun v hv ⟨hlo, hhi⟩ hp => hd.cleared.cleared v hv ⟨?_, hhi⟩ hp,
        fun v hv hc => hd.cleared.kept v hv fun hv' => hc ⟨⟨hv'.1.1.le, hv'.1.2⟩, hv'.2⟩⟩
      exact (PgDir.visits_iff hlo hv hp).2 (h v hlo hhi hp).2
    refine ⟨d', m', hrun, hcl', ?_⟩
    have hpages := hd.pages
    rwa [hcl'.userPages hhi, add_left_comm, add_comm, add_right_inj] at hpages

/-- A directory that maps the first page of the second table, and has no first table. -/
def PgDir.sparse : PgDir where
  page := 0x200000
  pde := update (fun _ => none) 1
    (some { page := 0x201000, pte := update (fun _ => 0) 0 (0x202000 ||| PTE_P ||| PTE_W ||| PTE_U) })

theorem PgDir.not_hasTable_sparse : ¬ PgDir.sparse.HasTable 1 := fun h => Bool.false_ne_true h

/-- The page behind a missing table is skipped. -/
theorem deallocuvm_precise_iff_sparse :
    ¬ ∃ d' m', deallocuvm default PgDir.sparse 0x401000 0x1000 (Mem.zero fun _ _ => 0) = .ok ((d', 0x1000), m') ∧
      PgDir.sparse.Cleared (fun v => npages 0x1000 ≤ v ∧ v < npages 0x401000) d' ∧
      (m'.freelist : Multiset UInt32) = (Mem.zero fun _ _ => 0).freelist +
        ∑ v ∈ Finset.Ico (npages 0x1000) (npages 0x401000), ptePage (PgDir.sparse.entry v) := by
  rw [deallocuvm_precise_iff (by decide) (by decide)]
  intro h
  rcases (h 1024 (by decide) (by decide) (by decide)).2 with h0 | ⟨k, hk, ht⟩
  · exact absurd h0 (by decide)
  · have hk0 : k = 0 := by
      have h1 : npages 0x1000 = 1 := rfl
      omega
    subst hk0
    exact PgDir.not_hasTable_sparse ht

/-- The loop starts at the second page, goes to the second page of the next table, and is done: the
page before it is still mapped. -/
theorem deallocuvm_skips_page :
    deallocuvm default PgDir.sparse 0x401000 0x1000 (Mem.zero fun _ _ => 0) =
      .ok ((PgDir.sparse, 0x1000), Mem.zero fun _ _ => 0) ∧
    PGROUNDUP 0x1000 ≤ 0x400000 ∧ (0x400000 : UInt32) < 0x401000 ∧
    Present (PgDir.sparse.pte 0x400000) ∧
    (default : KernelImage).Page (PTE_ADDR (PgDir.sparse.pte 0x400000)) := by
  refine ⟨?_, by decide, by decide, by decide, by decide⟩
  unfold deallocuvm
  rw [if_neg (by decide), show turns = 1048575 + 1 + 1 from rfl, deallocLoop, if_pos (by decide),
    if_pos (by decide), deallocLoop, if_neg (by decide)]
  rfl

theorem Valid.page_of_present (h : Valid img m d.pages) (hv : v < userPageCount)
    (hp : Present (d.entry v)) : img.Page (PTE_ADDR (d.entry v)) := by
  refine h _ (Multiset.mem_add.2 (.inr (Multiset.mem_add.2 (.inr ?_))))
  exact PgDir.mem_userPages.2 ⟨v, hv, hp, rfl⟩

end

end TronBoss.Vm
