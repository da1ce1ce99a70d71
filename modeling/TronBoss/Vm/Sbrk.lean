import TronBoss.Vm.UvmSpec

/-!
# `growproc`

A process that owns exactly the pages below its size is grown or shrunk by whole pages. `growproc`
takes the size `0` for a failure, so that a process that gives all of its memory back is told that
nothing was done; and the result of a `mappages` that found no page for a table is not looked at. The
main result says for which sizes, tables and free pages `growproc` is all-or-nothing, whichever calls
of `kalloc` fail.
-/

namespace TronBoss.Vm

open Lib Function Multiset

/-- The process maps exactly the pages below its size, and owns what its directory leads to. -/
structure Proc.Mapped (img : KernelImage) (m : Mem) (p : Proc) : Prop where
  size_le : p.sz ≤ KERNBASE
  mapped : ∀ v < userPageCount, Present (p.pgdir.entry v) ↔ v < npages p.sz
  valid : Valid img m p.pgdir.pages
  nodup : ((m.freelist : Multiset UInt32) + p.pgdir.pages).Nodup

theorem Proc.Mapped.withRefuse {img : KernelImage} {m : Mem} {p : Proc} (h : p.Mapped img m)
    (refuse : List Bool) : p.Mapped img { m with refuse } :=
  ⟨h.size_le, h.mapped, h.valid, h.nodup⟩

/-- A byte of the user memory. -/
def PgDir.byte (d : PgDir) (m : Mem) (a : Nat) : UInt8 :=
  m.frame (PTE_ADDR (d.entry (a / 4096))) (Fin.ofNat 4096 a)

/-- `growproc` did what it was asked to. -/
structure Grew (m : Mem) (p : Proc) (n : Int32) (p' : Proc) (m' : Mem) : Prop where
  size : (p'.sz.toNat : Int) = p.sz.toNat + n.toInt
  size_lt : n ≠ 0 → p'.sz < KERNBASE
  mapped : ∀ v < userPageCount, Present (p'.pgdir.entry v) ↔ v < npages p'.sz
  kept : ∀ a < p.sz.toNat, a < p'.sz.toNat → p'.pgdir.byte m' a = p.pgdir.byte m a
  zero : ∀ a < p'.sz.toNat, p.sz.toNat ≤ a → p'.pgdir.byte m' a = 0

/-- The memory of the process is what it was. -/
structure Unchanged (m : Mem) (p p' : Proc) (m' : Mem) : Prop where
  size : p'.sz = p.sz
  entry : ∀ v < userPageCount, Present (p.pgdir.entry v) ∨ Present (p'.pgdir.entry v) →
    p'.pgdir.entry v = p.pgdir.entry v
  contents : ∀ v < npages p.sz, m'.frame (PTE_ADDR (p.pgdir.entry v)) = m.frame (PTE_ADDR (p.pgdir.entry v))

/-- Pages were added, as far as `mappages` succeeded. -/
structure Extended (m : Mem) (p : Proc) (newsz : UInt32) (p' : Proc) (m' : Mem) : Prop where
  size : p'.sz = newsz
  size_lt : newsz < KERNBASE
  entry : ∀ v < npages p.sz, p'.pgdir.entry v = p.pgdir.entry v
  mapped : ∀ v < userPageCount, Present (p'.pgdir.entry v) → v < npages newsz
  full : (∀ v, npages p.sz ≤ v → v < npages newsz → p.pgdir.HasTable v) →
    ∀ v < npages newsz, Present (p'.pgdir.entry v)
  count : npages newsz ≤ npages p.sz + m.freelist.length
  contents : ∀ v < npages p.sz, m'.frame (PTE_ADDR (p.pgdir.entry v)) = m.frame (PTE_ADDR (p.pgdir.entry v))
  zero : ∀ v < userPageCount, npages p.sz ≤ v → Present (p'.pgdir.entry v) →
    m'.frame (PTE_ADDR (p'.pgdir.entry v)) = fun _ => 0

/-- `growproc` does what it is asked to, or fails and changes nothing. -/
def AllOrNothing (img : KernelImage) (p : Proc) (n : Int32) (m : Mem) : Prop :=
  ∃ r m', growproc img p n m = .ok (r, m') ∧
    (r.2 = 0 ∧ Grew m p n r.1 m' ∨ r.2 = -1 ∧ Unchanged m p r.1 m')

/-- The pages that are added have their tables, and the rest of the last page that there is is zero. -/
structure Proc.Ready (m : Mem) (p : Proc) (newsz : UInt32) : Prop where
  table : ∀ v, npages p.sz ≤ v → v < npages newsz → p.pgdir.HasTable v
  tail : ∀ a, p.sz.toNat ≤ a → a < newsz.toNat → a < 4096 * npages p.sz → p.pgdir.byte m a = 0

/-- Pages were taken away. -/
structure Trimmed (m : Mem) (p : Proc) (newsz : UInt32) (p' : Proc) (m' : Mem) : Prop where
  mapped : ∀ v < userPageCount, Present (p'.pgdir.entry v) ↔ v < npages newsz
  entry : ∀ v < npages newsz, p'.pgdir.entry v = p.pgdir.entry v
  contents : ∀ v < npages newsz, m'.frame (PTE_ADDR (p.pgdir.entry v)) = m.frame (PTE_ADDR (p.pgdir.entry v))

section
variable {E : Stop → Prop} {img : KernelImage} {m m' : Mem} {p p' : Proc} {n : Int32} {newsz : UInt32}

section
variable (h : p.Mapped img m)
include h

theorem Proc.Mapped.npages_le : npages p.sz ≤ userPageCount := Vm.npages_le h.size_le

/-- The tables of a process go up to its size. -/
theorem Proc.Mapped.start {v : Nat} (hv : v ≤ npages p.sz) :
    v % 1024 = 0 ∨ p.pgdir.HasTable v :=
  PgDir.start_of_tables (fun w hw =>
    PgDir.hasTable_of_present ((h.mapped w (hw.trans_le h.npages_le)).2 hw)) h.npages_le hv

/-- A page of the process is not free. -/
theorem Proc.Mapped.not_mem {v : Nat} (hv : v < npages p.sz) :
    PTE_ADDR (p.pgdir.entry v) ∉ m.freelist := by
  have hu := hv.trans_le h.npages_le
  have hmem := PgDir.mem_userPages.2 ⟨v, hu, (h.mapped v hu).2 hv, rfl⟩
  have hd := (nodup_add.1 h.nodup).2.2
  exact fun hin => disjoint_left.1 hd hin (mem_add.2 (.inr hmem))

/-- `allocuvm` for a process: the pages are added, or nothing has changed. -/
theorem sat_extend (hlt : p.sz < newsz) : Sat E (allocuvm img p.pgdir p.sz newsz) m
    fun r m' => r.2 = newsz ∧ Extended m p newsz { p with pgdir := r.1, sz := newsz } m' ∨
      r.2 = 0 ∧ Unchanged m p { p with pgdir := r.1 } m' := by
  have hnodup : m.freelist.Nodup := coe_nodup.1 (nodup_add.1 h.nodup).1
  refine (sat_allocuvm h.size_le (UInt32.le_of_lt hlt) (h.start le_rfl) (fun v hv => (h.mapped v hv).1)
    hnodup fun pa hpa => h.valid pa (mem_add.2 (.inl hpa))).weaken fun r m' hr => ?_
  rcases hr with ⟨hr, hk, hg⟩ | ⟨hr, hg⟩
  · have hentry (v) (hv : v < npages p.sz) : r.1.entry v = p.pgdir.entry v :=
      hg.same v (userPageCount_lt (hv.trans_le h.npages_le)) (.inl hv)
    have hcount := hg.count
    refine .inl ⟨hr, rfl, hk, hentry, hg.mapped, fun hall v hv => ?_, by omega,
      fun v hv => hg.frame _ (h.not_mem hv), fun v hv hge hp => (hg.new v hv hge hp).2.2⟩
    by_cases hlow : v < npages p.sz
    · rw [hentry v hlow]
      exact (h.mapped v (hlow.trans_le h.npages_le)).2 hlow
    · exact hg.full hall v (Nat.not_lt.1 hlow) hv
  · refine .inr ⟨hr, rfl, fun v hv hp => hg.same v ?_ hv, fun v hv => hg.frame _ (h.not_mem hv)⟩
    exact hp.elim (h.mapped v hv).1 (hg.mapped v hv)

/-- `deallocuvm` for a process. -/
theorem sat_shrink (hlt : newsz < p.sz) : Sat E (deallocuvm img p.pgdir p.sz newsz) m
    fun r m' => r.2 = newsz ∧ ∀ sz, Trimmed m p newsz { p with pgdir := r.1, sz := sz } m' := by
  have hle : npages newsz ≤ npages p.sz := npages_mono (UInt32.le_of_lt hlt)
  refine (sat_deallocuvm h.size_le (.inl fun v _ hv hp =>
    h.valid.page_of_present (hv.trans_le h.npages_le) hp)).weaken fun r m' ⟨hd, hr⟩ => ?_
  have hcl := hd.cleared.range (h.start hle)
  refine ⟨hr.trans (if_neg (UInt32.not_le.2 hlt)), fun _ => ⟨fun v hv => ?_, fun v hv => ?_,
    fun v hv => hd.frame _ fun w hge hw hp he => ?_⟩⟩
  · rw [hcl.present (userPageCount_lt hv), h.mapped v hv]
    omega
  · exact hcl.kept v (userPageCount_lt ((hv.trans_le hle).trans_le h.npages_le)) fun hc =>
      absurd hc.1.1 (Nat.not_le.2 hv)
  · -- a page that stays is not among those that are freed
    have hu := (hv.trans_le hle).trans_le h.npages_le
    have hnodup := (nodup_add.1 (nodup_add.1 h.nodup).2.1).2.1
    have := PgDir.eq_of_addr hnodup (hw.trans_le h.npages_le) hu hp
      ((h.mapped v hu).2 (hv.trans_le hle)) he
    omega

end

/-- The new size, before the check that it is not too large. -/
theorem toNat_newsz (sz : UInt32) (n : Int32) :
    ((sz + n.toUInt32).toNat : Int) = (sz.toNat + n.toInt) % 2 ^ 32 := by
  rw [UInt32.toNat_add, toNat_toUInt32 n]
  omega

/-- What `growproc` does to a process. -/
theorem sat_growproc (h : p.Mapped img m) : Sat E (growproc img p n) m fun r m' =>
    n = 0 ∧ r = (p, 0) ∧ m' = m ∨
    0 < n.toInt ∧ (r.2 = 0 ∧ Extended m p (p.sz + n.toUInt32) r.1 m' ∨ r.2 = -1 ∧ Unchanged m p r.1 m') ∨
    n.toInt < 0 ∧ (p.sz.toNat + n.toInt < 0 ∧ r = (p, if p.sz = 0 then -1 else 0) ∧ m' = m ∨
      p.sz.toNat + n.toInt = 0 ∧ r.2 = -1 ∧ r.1.sz = p.sz ∧ Trimmed m p 0 r.1 m' ∨
      0 < p.sz.toNat + n.toInt ∧ r.2 = 0 ∧ r.1.sz = p.sz + n.toUInt32 ∧
        Trimmed m p (p.sz + n.toUInt32) r.1 m') := by
  have hsz := h.size_le
  have hnew := toNat_newsz p.sz n
  have hlo := n.le_toInt
  have hhi := n.toInt_lt
  rw [UInt32.le_iff_toNat_le, toNat_KERNBASE] at hsz
  have hpos : 0 < n ↔ 0 < n.toInt := Int32.lt_iff_toInt_lt
  have hneg : n < 0 ↔ n.toInt < 0 := Int32.lt_iff_toInt_lt
  have hzero : n = 0 ↔ n.toInt = 0 := Int32.toInt_inj.symm
  unfold growproc
  refine Sat.ite (fun hn => ?_) fun hn => Sat.ite (fun hn' => ?_) fun hn' => ?_
  · rw [hpos] at hn
    have hlt : p.sz < p.sz + n.toUInt32 := by
      rw [UInt32.lt_iff_toNat_lt]
      omega
    refine (sat_extend h hlt).bind fun ⟨d, sz⟩ m' hr => ?_
    dsimp only at hr ⊢
    rcases hr with ⟨rfl, he⟩ | ⟨rfl, hu⟩
    · rw [if_neg fun hc => ?_]
      · exact .inr (.inl ⟨hn, .inl ⟨rfl, he⟩⟩)
      · rw [← UInt32.toNat_inj, UInt32.toNat_zero] at hc
        omega
    · rw [if_pos ⟨fun h0 => hn.ne' (hzero.1 h0), rfl⟩]
      exact .inr (.inl ⟨hn, .inr ⟨rfl, hu⟩⟩)
  · rw [hneg] at hn'
    have hn0 : n ≠ 0 := fun h0 => hn'.ne (hzero.1 h0)
    by_cases hle : p.sz.toNat + n.toInt < 0
    · -- the difference wraps, and nothing is to be freed
      have hge : p.sz + n.toUInt32 ≥ p.sz := by
        rw [ge_iff_le, UInt32.le_iff_toNat_le]
        omega
      unfold deallocuvm
      rw [if_pos hge, sat_pure_bind]
      refine Sat.ite (fun hc => ?_) fun hc => ?_
      · exact .inr (.inr ⟨hn', .inl ⟨hle, by rw [if_pos hc.2], rfl⟩⟩)
      · exact .inr (.inr ⟨hn', .inl ⟨hle, by rw [if_neg fun h0 => hc ⟨hn0, h0⟩], rfl⟩⟩)
    have hlt : p.sz + n.toUInt32 < p.sz := by
      rw [UInt32.lt_iff_toNat_lt]
      omega
    refine (sat_shrink h hlt).bind fun ⟨d, sz⟩ m' ⟨hr, ht⟩ => ?_
    subst hr
    refine Sat.ite (fun hc => ?_) fun hc => ?_
    · have h0 : p.sz.toNat + n.toInt = 0 := by
        have := congrArg UInt32.toNat hc.2
        rw [UInt32.toNat_zero] at this
        omega
      rw [hc.2] at ht
      exact .inr (.inr ⟨hn', .inr (.inl ⟨h0, rfl, rfl, ht p.sz⟩)⟩)
    · have h0 : 0 < p.sz.toNat + n.toInt := by
        have : (p.sz + n.toUInt32).toNat ≠ 0 := fun h0 =>
          hc ⟨hn0, UInt32.toNat_inj.1 (by rw [h0, UInt32.toNat_zero])⟩
        omega
      exact .inr (.inr ⟨hn', .inr (.inr ⟨h0, rfl, rfl, ht _⟩)⟩)
  · rw [hpos] at hn
    rw [hneg] at hn'
    have h0 : n = 0 := hzero.2 (by omega)
    rw [sat_pure_bind]
    dsimp only
    rw [if_neg fun hc => hc.1 h0]
    exact .inl ⟨h0, rfl, rfl⟩

/-- The bytes of pages that are the same. -/
theorem byte_eq {lim a : Nat} (hentry : ∀ v < lim, p'.pgdir.entry v = p.pgdir.entry v)
    (hcont : ∀ v < lim, m'.frame (PTE_ADDR (p.pgdir.entry v)) = m.frame (PTE_ADDR (p.pgdir.entry v)))
    (ha : a / 4096 < lim) : p'.pgdir.byte m' a = p.pgdir.byte m a := by
  rw [PgDir.byte, PgDir.byte, hentry _ ha, hcont _ ha]

theorem div_lt_npages {sz : UInt32} {a : Nat} (h : a < sz.toNat) : a / 4096 < npages sz := by
  rw [npages]
  omega

/-- Growing is complete if every page is mapped and the rest of the last page was zero. -/
theorem Extended.grew_iff (he : Extended m p newsz p' m')
    (hnew : (newsz.toNat : Int) = p.sz.toNat + n.toInt) :
    Grew m p n p' m' ↔ (∀ v < npages newsz, Present (p'.pgdir.entry v)) ∧
      ∀ a, p.sz.toNat ≤ a → a < newsz.toNat → a < 4096 * npages p.sz → p.pgdir.byte m a = 0 := by
  have hsame {a} (ha : a / 4096 < npages p.sz) := byte_eq he.entry he.contents ha
  constructor
  · intro hg
    refine ⟨fun v hv => ?_, fun a hlo hhi ha => ?_⟩
    · rw [hg.mapped v (hv.trans_le (npages_le (UInt32.le_of_lt he.size_lt))), he.size]
      exact hv
    · rw [← hsame (by omega)]
      exact hg.zero a (he.size ▸ hhi) hlo
  · rintro ⟨hfull, htail⟩
    refine ⟨by rw [he.size, hnew], fun _ => he.size ▸ he.size_lt, fun v hv => ?_, fun a ha _ => ?_,
      fun a ha hlo => ?_⟩
    · rw [he.size]
      exact ⟨he.mapped v hv, hfull v⟩
    · exact hsame (div_lt_npages ha)
    · rw [he.size] at ha
      by_cases hlow : a / 4096 < npages p.sz
      · rw [hsame hlow]
        exact htail a hlo ha (by omega)
      · have hv := div_lt_npages ha
        have hu := hv.trans_le (npages_le (UInt32.le_of_lt he.size_lt))
        rw [PgDir.byte, he.zero _ hu (Nat.not_lt.1 hlow) (hfull _ hv)]

/-- Taking pages away is complete. -/
theorem Trimmed.grew (h : p.Mapped img m) (ht : Trimmed m p newsz p' m') (hsz : p'.sz = newsz)
    (hnew : (newsz.toNat : Int) = p.sz.toNat + n.toInt) (hn : n.toInt < 0) : Grew m p n p' m' := by
  have hle := h.size_le
  rw [UInt32.le_iff_toNat_le] at hle
  refine ⟨by rw [hsz, hnew], fun _ => ?_, fun v hv => hsz ▸ ht.mapped v hv, fun a _ ha => ?_,
    fun a ha hlo => ?_⟩
  · rw [hsz, UInt32.lt_iff_toNat_lt]
    omega
  · exact byte_eq ht.entry ht.contents (div_lt_npages (hsz ▸ ha))
  · rw [hsz] at ha
    omega

/-- A process that gives up all its pages has lost them. -/
theorem Trimmed.not_unchanged (h : p.Mapped img m) (ht : Trimmed m p 0 p' m') (hsz : 0 < p.sz.toNat) :
    ¬ Unchanged m p p' m' := by
  intro hu
  have h0 : 0 < npages p.sz := by
    rw [npages]
    omega
  have hp := (h.mapped 0 (h0.trans_le h.npages_le)).2 h0
  have hno := ht.mapped 0 (h0.trans_le h.npages_le)
  rw [hu.entry 0 (h0.trans_le h.npages_le) (.inl hp)] at hno
  exact absurd (hno.1 hp) (Nat.not_lt_zero _)

/-- Growing when every page is granted and every table refused: the call succeeds, and no table was
added. -/
theorem sat_growproc_denied (hm : p.Mapped img m) (hn : 0 < n.toInt)
    (hlt : p.sz + n.toUInt32 < KERNBASE)
    (hfree : npages (p.sz + n.toUInt32) ≤ npages p.sz + m.freelist.length)
    (href : m.refuse =
      p.pgdir.denials (npages p.sz) (npages (p.sz + n.toUInt32) - npages p.sz)) :
    Sat E (growproc img p n) m fun r _ =>
      r.2 = 0 ∧ ∀ v, r.1.pgdir.HasTable v ↔ p.pgdir.HasTable v := by
  have hsz := hm.size_le
  have hnew := toNat_newsz p.sz n
  have hhi := n.toInt_lt
  rw [UInt32.le_iff_toNat_le, toNat_KERNBASE] at hsz
  have hle : p.sz ≤ p.sz + n.toUInt32 := by
    rw [UInt32.le_iff_toNat_le]
    omega
  unfold growproc
  rw [if_pos (Int32.lt_iff_toInt_lt.2 (Int32.toInt_zero.symm ▸ hn))]
  refine (sat_allocuvm_denied hm.size_le hle hlt (fun v hv => (hm.mapped v hv).1) href hfree).bind
    fun ⟨d, sz⟩ m' ⟨hr, ht⟩ => ?_
  dsimp only at hr ht ⊢
  rw [hr, if_neg fun hc => ?_]
  · exact ⟨rfl, ht⟩
  · have hc := congrArg UInt32.toNat hc.2
    rw [UInt32.toNat_zero] at hc
    omega

/-- So it is all-or-nothing only where there is no table to refuse and the rest of the last page is
zero. -/
theorem ready_of_allOrNothing (hm : p.Mapped img m) (hn : 0 < n.toInt)
    (hlt : p.sz + n.toUInt32 < KERNBASE)
    (hfree : npages (p.sz + n.toUInt32) ≤ npages p.sz + m.freelist.length)
    (href : m.refuse =
      p.pgdir.denials (npages p.sz) (npages (p.sz + n.toUInt32) - npages p.sz))
    (h : AllOrNothing img p n m) : p.Ready m (p.sz + n.toUInt32) := by
  obtain ⟨r, m', hrun, hr⟩ := h
  obtain ⟨hret, htab⟩ := (sat_growproc_denied (E := fun _ => False) hm hn hlt hfree href).of_ok hrun
  have hne : r.2 ≠ -1 := by rw [hret]; decide
  rcases (sat_growproc (E := fun _ => False) hm).of_ok hrun with ⟨rfl, -⟩ | ⟨-, h⟩ | ⟨h, -⟩
  · exact absurd hn (by decide)
  · have he := (h.resolve_right fun hu => hne hu.1).2
    have hsz := hm.size_le
    have hnew := toNat_newsz p.sz n
    have hhi := n.toInt_lt
    rw [UInt32.le_iff_toNat_le, toNat_KERNBASE] at hsz
    obtain ⟨hall, htail⟩ := (he.grew_iff (by omega)).1 (hr.resolve_right fun hu => hne hu.1).2
    exact ⟨fun v _ hv => (htab v).1 (PgDir.hasTable_of_present (hall v hv)), htail⟩
  · omega

/-- `growproc` is all-or-nothing for every pattern of `kalloc` failures exactly if it does not have to
take away as much as there is or more, and, when it has to grow and there are free pages enough for the
pages that are added, each of these has its table and the rest of the last page is zero. -/
theorem growproc_all_or_nothing_iff (hm : p.Mapped img m) (n : Int32) :
    (∀ refuse, AllOrNothing img p n { m with refuse }) ↔
      (n.toInt < 0 → p.sz = 0 ∨ 0 < p.sz.toNat + n.toInt) ∧
      (0 < n.toInt → p.sz + n.toUInt32 < KERNBASE →
        npages (p.sz + n.toUInt32) ≤ npages p.sz + m.freelist.length →
          p.Ready m (p.sz + n.toUInt32)) := by
  have hsz := hm.size_le
  have hnew := toNat_newsz p.sz n
  have hhi := n.toInt_lt
  have hz : p.sz = 0 ↔ p.sz.toNat = 0 := by rw [← UInt32.toNat_inj, UInt32.toNat_zero]
  rw [UInt32.le_iff_toNat_le, toNat_KERNBASE] at hsz
  constructor
  · intro h
    refine ⟨fun hn => ?_, fun hn hlt hfree => ?_⟩
    rotate_left
    · obtain ⟨htable, htail⟩ := ready_of_allOrNothing (hm.withRefuse (p.pgdir.denials _ _)) hn hlt
        hfree rfl (h _)
      exact ⟨htable, htail⟩
    obtain ⟨r, m', hrun, hr⟩ := h m.refuse
    rcases (sat_growproc (E := fun _ => False) hm).of_ok hrun with ⟨rfl, -⟩ | ⟨hpos, -⟩ | ⟨-, hcase⟩
    · exact absurd hn (by decide)
    · omega
    · rcases hcase with ⟨hlt, rfl, rfl⟩ | ⟨h0, hret, -, ht⟩ | ⟨hgt, -⟩
      · -- the difference wraps: the size is the old one, and so is the result
        refine .inl (Classical.by_contradiction fun h0 => ?_)
        rw [if_neg h0] at hr
        have hsize := (hr.resolve_right fun hu => absurd hu.1 (show ¬ (0 : Int) = -1 by decide)).2.size
        omega
      · rw [hret] at hr
        exact absurd (hr.resolve_left fun hg => absurd hg.1 (by decide)).2
          (ht.not_unchanged hm (by omega))
      · exact .inr hgt
  · rintro ⟨hshrink, hgrow⟩ refuse
    have hm' := hm.withRefuse refuse
    obtain ⟨r, m', hrun, hr⟩ := (sat_growproc (E := fun _ => False) (n := n) hm').returns
    refine ⟨r, m', hrun, ?_⟩
    rcases hr with ⟨rfl, rfl, rfl⟩ | ⟨hn, hr⟩ | ⟨hn, hr⟩
    · refine .inl ⟨rfl, by simp, fun h => absurd rfl h, hm.mapped, fun _ _ _ => rfl, ?_⟩
      exact fun a ha hlo => absurd ha (Nat.not_lt.2 hlo)
    · refine hr.imp (fun ⟨hret, he⟩ => ⟨hret, (he.grew_iff (by omega)).2 ?_⟩) id
      have hready := hgrow hn he.size_lt he.count
      exact ⟨he.full hready.table, hready.tail⟩
    · rcases hr with ⟨hlt, rfl, rfl⟩ | ⟨h0, -⟩ | ⟨hgt, hret, hsize, ht⟩
      · have h0 : p.sz = 0 := (hshrink hn).resolve_right (by omega)
        exact .inr ⟨if_pos h0, rfl, fun _ _ _ => rfl, fun _ _ => rfl⟩
      · have := hz.1 ((hshrink hn).resolve_right (by omega))
        omega
      · exact .inl ⟨hret, ht.grew hm' hsize (by omega) hn⟩

end

/-! ## A process with one page -/

/-- A directory with one page, as `userinit` makes it, without the kernel. -/
def PgDir.onePage : PgDir :=
  ((PgDir.empty 0x200000).addTable 0 0x201000).setPte 0 (0x202000 ||| (PTE_W ||| PTE_U) ||| PTE_P)

/-- A process with this directory. -/
def Proc.onePage : Proc := ⟨PGSIZE, .onePage⟩

/-- A memory with two free pages. -/
def Mem.twoFree : Mem := (Mem.zero fun _ _ => 0).setFree [0x204000, 0x205000]

theorem PgDir.entry_onePage {v : Nat} (hv : v < 1048576) :
    PgDir.onePage.entry v =
      update (PgDir.empty 0x200000).entry 0 (0x202000 ||| (PTE_W ||| PTE_U) ||| PTE_P) v := by
  have hnew (w : Nat) : ((PgDir.empty 0x200000).addTable 0 0x201000).entry w = 0 :=
    entry_addTable not_hasTable_empty
  rw [onePage, entry_setPte ((hasTable_addTable (vpn_lt 0)).2 (.inr rfl)) hv, funext hnew]
  rfl

theorem PgDir.pages_onePage : PgDir.onePage.pages = {0x200000, 0x201000, 0x202000} := by
  have hnone : (PgDir.empty 0x200000).userPages = 0 := by
    unfold userPages
    exact Finset.sum_eq_zero fun v _ => ptePage_of_not_present not_present_zero
  have huser := userPages_update (d := .empty 0x200000) (w := 0) (by decide)
    fun v hv => entry_onePage (userPageCount_lt hv)
  rw [hnone, entry_empty, ptePage_of_not_present not_present_zero, add_zero, zero_add,
    ptePage_of_present present_entry, PTE_ADDR_entry (by decide) (by decide)] at huser
  rw [pages, huser, onePage, tablePages_setPte, tablePages_addTable not_hasTable_empty,
    tablePages_empty, zero_add]
  rfl

/-- The process with one page maps the pages below its size. -/
theorem Proc.mapped_onePage : Proc.onePage.Mapped default Mem.twoFree := by
  have hall : (Mem.twoFree.freelist : Multiset UInt32) + Proc.onePage.pgdir.pages =
      {0x204000, 0x205000, 0x200000, 0x201000, 0x202000} := by
    rw [Proc.onePage, PgDir.pages_onePage]
    rfl
  refine ⟨by decide, fun v hv => ?_, fun pa hpa => ?_, ?_⟩
  · rw [Proc.onePage, PgDir.entry_onePage (userPageCount_lt hv), show npages PGSIZE = 1 from rfl]
    by_cases h0 : v = 0
    · rw [h0, update_self]
      decide
    · rw [update_of_ne h0]
      exact iff_of_false not_present_zero (by omega)
  · simp only [hall, insert_eq_cons, mem_cons, mem_singleton] at hpa
    rcases hpa with rfl | rfl | rfl | rfl | rfl <;> decide
  · rw [hall]
    decide

/-- The process can be grown by a page: whatever `kalloc` answers, it gets the page or nothing
changes. -/
theorem growproc_all_or_nothing_onePage : Proc.onePage.Mapped default Mem.twoFree ∧
    ∀ refuse, AllOrNothing default .onePage 4096 { Mem.twoFree with refuse } := by
  refine ⟨Proc.mapped_onePage, (growproc_all_or_nothing_iff Proc.mapped_onePage 4096).2
    ⟨fun h => absurd h (by decide), fun _ _ _ => ⟨fun v hlo hv => ?_, fun a hlo _ ha => ?_⟩⟩⟩
  · obtain rfl : v = 1 := by
      have hnew : npages (Proc.onePage.sz + (4096 : Int32).toUInt32) = 2 := by decide
      have hold : npages Proc.onePage.sz = 1 := by decide
      omega
    decide
  · exact absurd ha (Nat.not_lt.2 hlo)

/-- The process gives back the page that it has: it is told that nothing was done, but the page is
gone. -/
theorem growproc_fails_unmapped : ∃ (m : Mem) (p : Proc) (r : Proc × Int) (m' : Mem), p.Mapped default m ∧
    p.sz = PGSIZE ∧ growproc default p (-4096) m = .ok (r, m') ∧ r.2 = -1 ∧ r.1.sz = PGSIZE ∧
    Present (p.pgdir.entry 0) ∧ ¬ Present (r.1.pgdir.entry 0) := by
  have hm := Proc.mapped_onePage
  obtain ⟨r, m', hrun, hr⟩ := (sat_growproc (E := fun _ => False) (n := -4096) hm).returns
  have hsz : Proc.onePage.sz.toNat = 4096 := rfl
  have hn : (-4096 : Int32).toInt = -4096 := by decide
  rw [hn, hsz] at hr
  rcases hr with ⟨h, -⟩ | ⟨h, -⟩ | ⟨-, ⟨h, -⟩ | ⟨-, hret, hsize, ht⟩ | ⟨h, -⟩⟩
  · exact absurd h (by decide)
  · exact absurd h (by decide)
  · exact absurd h (by decide)
  · refine ⟨_, _, r, m', hm, rfl, hrun, hret, hsize, (hm.mapped 0 (by decide)).2 (by decide), fun hp => ?_⟩
    exact absurd ((ht.mapped 0 (by decide)).1 hp) (by decide)
  · exact absurd h (by decide)

end TronBoss.Vm
