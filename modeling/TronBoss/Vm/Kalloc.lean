import TronBoss.Lib.Bytes
import TronBoss.Lib.Hoare
import TronBoss.Vm.Mmu

/-!
# The physical page allocator

`kalloc` and `kfree` of `kalloc.c`. A page is named by its physical address where the code has the
kernel address `p2v(pa)`. Which calls of `kalloc` fail while there are free pages is not up to the
code, since other processors allocate too: `refuse` holds one answer for each of the coming calls.
-/

namespace TronBoss.Vm

open Lib Function

/-- Where the linker has put the end of the kernel, `end` of `kernel.ld`. -/
structure KernelImage where
  kend : UInt32
  lt_kend : KERNLINK < kend

instance : Inhabited KernelImage where
  default := { kend := 0x80118000, lt_kend := by decide }

/-- The contents of a page. -/
abbrev Frame : Type := Bytes 4096

/-- The physical memory: `kmem.freelist`, the answers to the coming calls of `kalloc`, and the
contents of the pages that are used as data. Page tables are not among these: a page is on the free
list, or is a table of a directory, or is mapped as data, and writing one of them does not change
another. -/
structure Mem where
  freelist : List UInt32
  refuse : List Bool
  frame : UInt32 → Frame

/-- A memory without a free page. -/
def Mem.zero (frame : UInt32 → Frame) : Mem := ⟨[], [], frame⟩

/-- `memset(v, c, PGSIZE)`. -/
def Mem.fill (m : Mem) (pa : UInt32) (c : UInt8) : Mem :=
  { m with frame := update m.frame pa fun _ => c }

/-- An assignment to `kmem.freelist`. -/
def Mem.setFree (m : Mem) (r : List UInt32) : Mem := { m with freelist := r }

/-- The memory when the next answer of `refuse` is used up. -/
def Mem.asked (m : Mem) : Mem := { m with refuse := m.refuse.tail }

def kalloc : Routine Mem (Option UInt32) := do
  let m ← get
  modify Mem.asked
  if m.refuse.headD false then return none
  else
    match m.freelist with
    | [] => return none
    | r :: next =>
      modify fun m => m.setFree next
      return some r

/-- What `kfree` does not accept. -/
def KernelImage.Rejects (img : KernelImage) (pa : UInt32) : Prop :=
  p2v pa % PGSIZE ≠ 0 ∨ p2v pa < img.kend ∨ pa ≥ PHYSTOP

instance (img : KernelImage) (pa : UInt32) : Decidable (img.Rejects pa) :=
  inferInstanceAs (Decidable (_ ∨ _))

@[irreducible] def kfree (img : KernelImage) (pa : UInt32) : Routine Mem Unit := do
  panicIf (img.Rejects pa) "kfree"
  modify fun m => m.fill pa 1
  modify fun m => m.setFree (pa :: m.freelist)

/-! ## Pages the allocator deals in -/

/-- A page that may be on the free list. -/
structure KernelImage.Page (img : KernelImage) (pa : UInt32) : Prop where
  aligned : Aligned pa
  kend_le : img.kend ≤ p2v pa
  lt_PHYSTOP : pa < PHYSTOP

instance (img : KernelImage) (pa : UInt32) : Decidable (img.Page pa) :=
  decidable_of_iff (Aligned pa ∧ img.kend ≤ p2v pa ∧ pa < PHYSTOP)
    ⟨fun h => ⟨h.1, h.2.1, h.2.2⟩, fun h => ⟨h.aligned, h.kend_le, h.lt_PHYSTOP⟩⟩

theorem toNat_p2v {pa : UInt32} (h : pa < PHYSTOP) : (p2v pa).toNat = pa.toNat + 2147483648 := by
  rw [UInt32.lt_iff_toNat_lt, toNat_PHYSTOP] at h
  rw [p2v, UInt32.toNat_add, toNat_KERNBASE]
  omega

/-- `kfree` panics for everything else. -/
theorem page_iff {img : KernelImage} {pa : UInt32} :
    img.Page pa ↔ ¬ img.Rejects pa := by
  rw [KernelImage.Rejects]
  have hmod : p2v pa % PGSIZE = 0 ↔ Aligned pa := by
    rw [← UInt32.toNat_inj, UInt32.toNat_mod, p2v, UInt32.toNat_add, toNat_PGSIZE, toNat_KERNBASE,
      UInt32.toNat_zero, Aligned]
    omega
  constructor
  · rintro ⟨ha, hk, hs⟩ (h | h | h)
    · exact h (hmod.2 ha)
    · exact absurd hk (UInt32.not_le.2 h)
    · exact absurd hs (UInt32.not_lt.2 h)
  · intro h
    rw [not_or, not_or, not_not, hmod, UInt32.not_lt, ge_iff_le, UInt32.not_le] at h
    exact ⟨h.1, h.2.1, h.2.2⟩

/-- No page of the allocator is at the address 0. -/
theorem KernelImage.Page.ne_zero {img : KernelImage} {pa : UInt32} (h : img.Page pa) : pa ≠ 0 := by
  rintro rfl
  have hk := h.kend_le
  have h1 := img.lt_kend
  rw [UInt32.le_iff_toNat_le, toNat_p2v h.lt_PHYSTOP] at hk
  rw [UInt32.lt_iff_toNat_lt, toNat_KERNLINK] at h1
  rw [UInt32.toNat_zero] at hk
  omega

/-! ## The routines -/

section
variable {E : Stop → Prop} {img : KernelImage} {m : Mem} {pa : UInt32}

/-- `kalloc` has no page, or it hands out the first one. -/
theorem sat_kalloc {Q : Option UInt32 → Mem → Prop} (hnone : Q none m.asked)
    (hsome : ∀ pa next, m.freelist = pa :: next → Q (some pa) (m.asked.setFree next)) :
    Sat E kalloc m Q := by
  rw [kalloc, sat_get_bind, sat_modify_bind]
  refine Sat.ite (fun _ => hnone) fun _ => ?_
  split
  · exact hnone
  · rename_i r next hm
    exact hsome r next hm

/-- A call that is not refused gets the first page. -/
theorem kalloc_granted {next : List UInt32} (h : m.refuse.headD false = false)
    (hm : m.freelist = pa :: next) : kalloc m = .ok (some pa, m.asked.setFree next) := by
  have hrun : Sat (fun _ => False) kalloc m fun r m' => r = some pa ∧ m' = m.asked.setFree next := by
    rw [kalloc, sat_get_bind, sat_modify_bind]
    refine Sat.ite (fun hr => absurd hr (by rw [h]; decide)) fun _ => ?_
    rw [hm]
    exact ⟨rfl, rfl⟩
  exact eq_ok_of_sat hrun

/-- A call that is refused gets none. -/
theorem kalloc_refused (h : m.refuse.headD false = true) : kalloc m = .ok (none, m.asked) := by
  have hrun : Sat (fun _ => False) kalloc m fun r m' => r = none ∧ m' = m.asked := by
    rw [kalloc, sat_get_bind, sat_modify_bind]
    exact Sat.ite (fun _ => ⟨rfl, rfl⟩) fun hr => absurd h hr
  exact eq_ok_of_sat hrun

/-- `kfree` takes a page back, after filling it with junk. -/
theorem sat_kfree {Q : Unit → Mem → Prop} (hp : img.Page pa ∨ E (.panic "kfree"))
    (h : img.Page pa → Q () ((m.fill pa 1).setFree (pa :: m.freelist))) :
    Sat E (kfree img pa) m Q := by
  unfold kfree
  rw [sat_panicIf_bind]
  constructor
  · intro hc
    exact hp.resolve_left fun hp => page_iff.1 hp hc
  · intro hc
    rw [sat_modify_bind, sat_modify]
    exact h (page_iff.2 hc)

end

end TronBoss.Vm
