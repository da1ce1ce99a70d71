import TronBoss.Vm.DeallocSpec

/-!
# What `allocuvm` does

`allocuvm` keeps what was mapped below the old size and adds zeroed pages, as far as `mappages` finds a
page for each table it needs; a `mappages` that fails is not noticed. Without a page, those that were
added are given back.
-/

namespace TronBoss.Vm

open Lib Function List

/-- Pages were added to `d₀` from `lo` up to `i`. They were free and are zeroed, and no other page has
changed. -/
structure Growth (m₀ : Mem) (d₀ : PgDir) (lo i : Nat) (m : Mem) (d : PgDir) : Prop where
  free : m.freelist <:+ m₀.freelist
  frame : ∀ pa ∉ m₀.freelist, m.frame pa = m₀.frame pa
  start : lo % 1024 = 0 ∨ d.HasTable lo
  table : ∀ v < 1048576, d₀.HasTable v → d.HasTable v
  same : ∀ v < 1048576, v < lo ∨ userPageCount ≤ v → d.entry v = d₀.entry v
  mapped : ∀ v < userPageCount, Present (d.entry v) → v < i
  new : ∀ v < userPageCount, lo ≤ v → Present (d.entry v) → PTE_ADDR (d.entry v) ∈ m₀.freelist ∧
    PTE_ADDR (d.entry v) ∉ m.freelist ∧ m.frame (PTE_ADDR (d.entry v)) = fun _ => 0
  /-- `mappages` fails only where a table was missing. -/
  full : (∀ v, lo ≤ v → v < i → d₀.HasTable v) → ∀ v, lo ≤ v → v < i → Present (d.entry v)
  /-- Every page costs at least one free page. -/
  count : m.freelist.length + i ≤ m₀.freelist.length + lo

/-- The mappings below `lo` are those of `d₀`, and there are no others. -/
structure Restored (m₀ : Mem) (d₀ : PgDir) (lo : Nat) (m : Mem) (d : PgDir) : Prop where
  frame : ∀ pa ∉ m₀.freelist, m.frame pa = m₀.frame pa
  same : ∀ v < lo, v < userPageCount → d.entry v = d₀.entry v
  mapped : ∀ v < userPageCount, Present (d.entry v) → v < lo

section
variable {E : Stop → Prop} {img : KernelImage} {m₀ m m' : Mem} {d₀ d d' : PgDir}
  {mem oldsz newsz : UInt32} {next : List UInt32} {lo i : Nat}

theorem Growth.refl (hstart : lo % 1024 = 0 ∨ d.HasTable lo)
    (hmapped : ∀ v < userPageCount, Present (d.entry v) → v < lo) : Growth m d lo lo m d := by
  refine ⟨suffix_rfl, fun _ _ => rfl, hstart, fun _ _ => id, fun _ _ _ => rfl, hmapped,
    fun v hv hle hp => ?_, fun _ v hle hlt => ?_, le_rfl⟩
  · exact absurd (hmapped v hv hp) (Nat.not_lt.2 hle)
  · exact absurd hlt (Nat.not_lt.2 hle)

/-- A page is taken and zeroed, and then mapped or lost. -/
theorem Growth.turn (h : Growth m₀ d₀ lo i m d) (hnodup : m₀.freelist.Nodup) (hlo : lo ≤ i)
    (hi : i < userPageCount) (hm : m.freelist = mem :: next) (hfree : m'.freelist <:+ next)
    (hframe : m'.frame = update m.frame mem fun _ => 0)
    (htable : ∀ v < 1048576, d.HasTable v → d'.HasTable v)
    (hsame : ∀ v < 1048576, v ≠ i → d'.entry v = d.entry v)
    (hnew : Present (d'.entry i) → PTE_ADDR (d'.entry i) = mem)
    (hfull : d.HasTable i → Present (d'.entry i)) : Growth m₀ d₀ lo (i + 1) m' d' := by
  have hsuf := h.free
  rw [hm] at hsuf
  have hmem : mem ∈ m₀.freelist := hsuf.subset mem_cons_self
  have hout : mem ∉ m'.freelist := fun hin =>
    (nodup_cons.1 (hnodup.sublist hsuf.sublist)).1 (hfree.subset hin)
  have hi' : i < 1048576 := userPageCount_lt hi
  refine ⟨(hfree.trans (suffix_cons ..)).trans hsuf, fun pa hpa => ?_,
    h.start.imp_right (htable lo (by omega)), fun v hv hd => htable v hv (h.table v hv hd),
    fun v hv hs => ?_, fun v hv hp => ?_, fun v hv hle hp => ?_, fun hall v hle hlt => ?_, ?_⟩
  · rw [hframe, update_of_ne (ne_of_mem_of_not_mem hmem hpa).symm, h.frame pa hpa]
  · rw [hsame v hv (by omega), h.same v hv hs]
  · by_cases hvi : v = i
    · omega
    · rw [hsame v (userPageCount_lt hv) hvi] at hp
      exact (h.mapped v hv hp).trans (Nat.lt_succ_self i)
  · by_cases hvi : v = i
    · subst hvi
      rw [hnew hp, hframe, update_self]
      exact ⟨hmem, hout, rfl⟩
    · rw [hsame v (userPageCount_lt hv) hvi] at hp ⊢
      obtain ⟨hin, hno, hz⟩ := h.new v hv hle hp
      rw [hm, mem_cons, not_or] at hno
      rw [hframe, update_of_ne hno.1]
      exact ⟨hin, fun hx => hno.2 (hfree.subset hx), hz⟩
  · rcases Nat.lt_succ_iff_lt_or_eq.1 hlt with hlt | rfl
    · rw [hsame v (by omega) hlt.ne]
      exact h.full (fun w hlo hw => hall w hlo (by omega)) v hle hlt
    · exact hfull (h.table v hi' (hall v hle hlt))
  · have hlen := hfree.length_le
    have hcount := h.count
    rw [hm, length_cons] at hcount
    omega

/-- The pages that were added are given back. -/
theorem Growth.undo {hi : Nat} (h : Growth m₀ d₀ lo i m d) (hi' : i ≤ hi) (hhi : hi ≤ userPageCount)
    (hd : Dealloc img m.asked d lo hi m' d') : Restored m₀ d₀ lo m' d' := by
  have hcl := hd.cleared.range h.start
  refine ⟨fun pa hpa => ?_, fun v hv hvu => ?_, fun v hv hp => ?_⟩
  · rw [hd.frame pa fun v hle hv hp he => hpa (he ▸ (h.new v (hv.trans_le hhi) hle hp).1)]
    exact h.frame pa hpa
  · rw [hcl.kept v (userPageCount_lt hvu) fun hc => absurd hv (Nat.not_lt.2 hc.1.1),
      h.same v (userPageCount_lt hvu) (.inl hv)]
  · obtain ⟨hno, hp⟩ := (hcl.present (userPageCount_lt hv)).1 hp
    have := h.mapped v hv hp
    by_contra hge
    exact hno ⟨by omega, by omega⟩

/-- The loop of `allocuvm`: all pages are done, or what was there is restored. -/
theorem sat_allocLoop (hnew : newsz < KERNBASE) (hnodup : m₀.freelist.Nodup)
    (hvalid : ∀ pa ∈ m₀.freelist, img.Page pa) (fuel : Nat) :
    ∀ {d : PgDir} {m : Mem} {a : UInt32}, Aligned a → npages oldsz ≤ vpn a → vpn a ≤ npages newsz →
    npages newsz - vpn a < fuel → Growth m₀ d₀ (npages oldsz) (vpn a) m d →
    Sat E (allocLoop img oldsz newsz fuel d a) m fun r m' =>
      r.2 = newsz ∧ Growth m₀ d₀ (npages oldsz) (npages newsz) m' r.1 ∨
      r.2 = 0 ∧ Restored m₀ d₀ (npages oldsz) m' r.1 := by
  have hpages : npages newsz ≤ userPageCount := npages_le (UInt32.le_of_lt hnew)
  induction fuel with
  | zero =>
    intro d m a _ _ _ hlt
    exact absurd hlt (Nat.not_lt_zero _)
  | succ k ih =>
    intro d m a ha hlo hle hlt hg
    rw [allocLoop]
    refine Sat.ite (fun hin => ?_) fun hout => .inl ⟨rfl, ?_⟩
    swap
    · rw [lt_iff_vpn_lt ha, Nat.not_lt] at hout
      rwa [← le_antisymm hle hout]
    rw [lt_iff_vpn_lt ha] at hin
    have huser : vpn a < userPageCount := hin.trans_le hpages
    have hnext : vpn (a + PGSIZE) = vpn a + 1 := vpn_add_PGSIZE (by rw [userPageCount] at huser; omega)
    have hnot : ¬ Present (d.entry (vpn a)) := fun hp => (hg.mapped _ huser hp).false
    have hrest {m1 d1} (h1 : Growth m₀ d₀ (npages oldsz) (vpn a + 1) m1 d1) :=
      ih ha.add_PGSIZE (by omega) (by omega) (by omega) (hnext.symm ▸ h1)
    rw [sat_bind]
    refine sat_kalloc ?_ fun mem next hm => ?_
    · refine (sat_deallocuvm (UInt32.le_of_lt hnew) (.inl fun v hge hv hp => ?_)).bind
        fun r m' hd => .inr ⟨rfl, hg.undo hin.le hpages hd.1⟩
      exact hvalid _ (hg.new v (hv.trans_le hpages) hge hp).1
    · rw [sat_modify_bind, sat_bind]
      have hmem : img.Page mem := hvalid mem (hg.free.subset (hm ▸ mem_cons_self))
      refine sat_mappages ha (.inl hnot) ?_ fun _ d' m' hgr he => ?_
      · -- no page for the table: the one that was taken is lost
        intro ht
        exact hrest (hg.turn hnodup hlo huser hm suffix_rfl rfl (fun _ _ => id)
          (fun _ _ _ => rfl) (fun hp => absurd hp hnot) fun hd => absurd hd ht)
      · have hself := he _ (vpn_lt a)
        rw [update_self] at hself
        refine hrest (hg.turn hnodup hlo huser hm hgr.free hgr.frame hgr.table (fun v hv hne => ?_)
          (fun _ => ?_) fun _ => ?_)
        · rw [he v hv, update_of_ne hne]
        · rw [hself, PTE_ADDR_entry hmem.aligned (by decide)]
        · rw [hself]
          exact present_entry

/-- The answers to the calls of `kalloc` for `k` pages from `v` on when every page is granted and every
table is refused. -/
def PgDir.denials (d : PgDir) : Nat → Nat → List Bool
  | _, 0 => []
  | v, k + 1 => false :: if d.HasTable v then d.denials (v + 1) k else true :: d.denials (v + 1) k

theorem PgDir.denials_congr (h : ∀ v, d'.HasTable v ↔ d.HasTable v) (v k : Nat) :
    d'.denials v k = d.denials v k := by
  induction k generalizing v with
  | zero => rfl
  | succ k ih => simp only [denials, h, ih]

/-- The loop of `allocuvm` under these answers: no table is added, and nobody notices. -/
theorem sat_allocLoop_denied (hnew : newsz < KERNBASE) (fuel : Nat) :
    ∀ {k : Nat} {d : PgDir} {m : Mem} {a : UInt32}, Aligned a → vpn a + k = npages newsz → k < fuel →
    m.refuse = d.denials (vpn a) k → k ≤ m.freelist.length →
    (∀ v < userPageCount, vpn a ≤ v → ¬ Present (d.entry v)) →
    Sat E (allocLoop img oldsz newsz fuel d a) m fun r _ =>
      r.2 = newsz ∧ ∀ v, r.1.HasTable v ↔ d.HasTable v := by
  have hpages : npages newsz ≤ userPageCount := npages_le (UInt32.le_of_lt hnew)
  induction fuel with
  | zero =>
    intro k d m a _ _ hlt
    exact absurd hlt (Nat.not_lt_zero _)
  | succ fuel ih =>
    intro k d m a ha hk hlt href hfree hnot
    rw [allocLoop]
    cases k with
    | zero =>
      rw [if_neg (by rw [lt_iff_vpn_lt ha]; omega)]
      exact ⟨rfl, fun _ => Iff.rfl⟩
    | succ k =>
      have huser : vpn a < userPageCount := by omega
      have hnext : vpn (a + PGSIZE) = vpn a + 1 :=
        vpn_add_PGSIZE (by rw [userPageCount] at huser; omega)
      obtain ⟨mem, next, hm⟩ := exists_cons_of_length_pos (Nat.zero_lt_of_lt hfree)
      rw [hm, length_cons] at hfree
      rw [if_pos (by rw [lt_iff_vpn_lt ha]; omega), sat_bind,
        sat_of_eq_ok (kalloc_granted (by rw [href]; rfl) hm), sat_modify_bind]
      have hasked : m.asked.refuse =
          if d.HasTable (vpn a) then d.denials (vpn a + 1) k else true :: d.denials (vpn a + 1) k := by
        rw [Mem.asked, href]
        rfl
      by_cases ht : d.HasTable (vpn a)
      · rw [if_pos ht] at hasked
        refine (sat_mappages_of_table ha ht (hnot _ huser le_rfl)).bind fun r m' hr => ?_
        obtain ⟨rfl, rfl⟩ := hr
        have htab (v : Nat) : (d.setPte a (mem ||| (PTE_W ||| PTE_U) ||| PTE_P)).HasTable v ↔
            d.HasTable v := PgDir.hasTable_setPte
        refine (ih (k := k) ha.add_PGSIZE (by omega) (by omega) ?_ (Nat.le_of_succ_le_succ hfree)
          fun v hv hle => ?_).weaken fun r _ hr => ⟨hr.1, fun v => (hr.2 v).trans (htab v)⟩
        · rw [hnext, PgDir.denials_congr htab]
          exact hasked
        · rw [PgDir.entry_setPte ht (userPageCount_lt hv), update_of_ne (by omega)]
          exact hnot v hv (by omega)
      · rw [if_neg ht] at hasked
        refine (sat_mappages_refused ha ht ?_).bind fun r m' hr => ?_
        · show m.asked.refuse.headD false = true
          rw [hasked]
          rfl
        · obtain ⟨rfl, rfl⟩ := hr
          refine ih (k := k) ha.add_PGSIZE (by omega) (by omega) ?_ (Nat.le_of_succ_le_succ hfree)
            fun v hv hle => hnot v hv (by omega)
          show m.asked.refuse.tail = _
          rw [hasked, hnext]
          rfl

/-- `allocuvm` of a directory that maps nothing from the size `oldsz` on. -/
theorem sat_allocuvm (hold : oldsz ≤ KERNBASE) (hle : oldsz ≤ newsz)
    (hstart : npages oldsz % 1024 = 0 ∨ d.HasTable (npages oldsz))
    (hmapped : ∀ v < userPageCount, Present (d.entry v) → v < npages oldsz)
    (hnodup : m.freelist.Nodup) (hvalid : ∀ pa ∈ m.freelist, img.Page pa) :
    Sat E (allocuvm img d oldsz newsz) m fun r m' =>
      r.2 = newsz ∧ newsz < KERNBASE ∧ Growth m d (npages oldsz) (npages newsz) m' r.1 ∨
      r.2 = 0 ∧ Restored m d (npages oldsz) m' r.1 := by
  unfold allocuvm
  refine Sat.ite (fun _ => .inr ⟨rfl, fun _ _ => rfl, fun _ _ _ => rfl, hmapped⟩) fun hlt =>
    Sat.ite (fun hn => absurd hle (UInt32.not_le.2 hn)) fun _ => ?_
  have hnew : newsz < KERNBASE := UInt32.not_le.1 hlt
  have hvpn := vpn_PGROUNDUP hold
  have hpages := npages_le (UInt32.le_of_lt hnew)
  have hfuel : npages newsz - vpn (PGROUNDUP oldsz) < turns := by
    rw [userPageCount] at hpages
    rw [turns]
    omega
  refine (sat_allocLoop hnew hnodup hvalid turns (aligned_PGROUNDUP _) hvpn.ge
    (hvpn.trans_le (npages_mono hle)) hfuel ?_).weaken fun r m' h => h.imp_left fun hr => ⟨hr.1, hnew, hr.2⟩
  rw [hvpn]
  exact .refl hstart hmapped

/-- `allocuvm` when every page is granted and every table refused. -/
theorem sat_allocuvm_denied (hold : oldsz ≤ KERNBASE) (hle : oldsz ≤ newsz) (hnew : newsz < KERNBASE)
    (hmapped : ∀ v < userPageCount, Present (d.entry v) → v < npages oldsz)
    (href : m.refuse = d.denials (npages oldsz) (npages newsz - npages oldsz))
    (hfree : npages newsz ≤ npages oldsz + m.freelist.length) :
    Sat E (allocuvm img d oldsz newsz) m fun r _ =>
      r.2 = newsz ∧ ∀ v, r.1.HasTable v ↔ d.HasTable v := by
  unfold allocuvm
  rw [if_neg (UInt32.not_le.2 hnew), if_neg (UInt32.not_lt.2 hle)]
  have hvpn := vpn_PGROUNDUP hold
  have hpages := npages_le (UInt32.le_of_lt hnew)
  have hmono := npages_mono hle
  refine sat_allocLoop_denied hnew turns (k := npages newsz - npages oldsz) (aligned_PGROUNDUP _)
    (by omega) ?_ (by rw [hvpn, href]) (by omega) fun v hv hge hp => ?_
  · rw [userPageCount] at hpages
    rw [turns]
    omega
  · exact Nat.not_lt.2 hge (hvpn ▸ hmapped v hv hp)

end

end TronBoss.Vm
