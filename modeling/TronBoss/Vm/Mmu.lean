import Mathlib.Data.Nat.Bitwise

/-!
# Addresses and their page numbers

The constants of `mmu.h` and `memlayout.h`, and the macros that round an address to a page and take
its page-directory and page-table index. `vpn` is the number of the page an address is in; the
lemmas say what each macro does to the number.
-/

namespace TronBoss.Vm

def PGSIZE : UInt32 := 4096

abbrev NPDENTRIES : Nat := 1024

abbrev NPTENTRIES : Nat := 1024

instance : NeZero NPTENTRIES := ⟨by decide⟩

def EXTMEM : UInt32 := 0x100000

def PHYSTOP : UInt32 := 0xE000000

def KERNBASE : UInt32 := 0x80000000

def KERNLINK : UInt32 := KERNBASE + EXTMEM

/-- The present bit of an entry. -/
def PTE_P : UInt32 := 0x001

/-- The writable bit of an entry. -/
def PTE_W : UInt32 := 0x002

/-- The bit of an entry that user code may use. -/
def PTE_U : UInt32 := 0x004

def v2p (a : UInt32) : UInt32 := a - KERNBASE

def p2v (a : UInt32) : UInt32 := a + KERNBASE

def PGROUNDUP (sz : UInt32) : UInt32 := (sz + PGSIZE - 1) &&& ~~~(PGSIZE - 1)

def PGROUNDDOWN (a : UInt32) : UInt32 := a &&& ~~~(PGSIZE - 1)

/-- The page-directory index of an address. -/
def PDX (va : UInt32) : Fin NPDENTRIES := Fin.ofNat 1024 ((va >>> 22) &&& 0x3FF).toNat

/-- The page-table index of an address. -/
def PTX (va : UInt32) : Fin NPTENTRIES := Fin.ofNat 1024 ((va >>> 12) &&& 0x3FF).toNat

/-- The physical address in an entry. -/
def PTE_ADDR (pte : UInt32) : UInt32 := pte &&& ~~~0xFFF

/-- The entry maps a page: `*pte & PTE_P`. -/
def Present (pte : UInt32) : Prop := pte &&& PTE_P ≠ 0

instance (pte : UInt32) : Decidable (Present pte) := inferInstanceAs (Decidable (_ ≠ _))

/-- The number of the page of an address. -/
def vpn (va : UInt32) : Nat := va.toNat / 4096

/-- The address is the first one of its page. -/
def Aligned (va : UInt32) : Prop := va.toNat % 4096 = 0

instance (va : UInt32) : Decidable (Aligned va) := inferInstanceAs (Decidable (_ = _))

/-- The number of pages that a size takes, the last one perhaps in part. -/
def npages (sz : UInt32) : Nat := (sz.toNat + 4095) / 4096

/-! ## Rounding -/

@[simp] theorem toNat_PGSIZE : PGSIZE.toNat = 4096 := rfl

@[simp] theorem toNat_KERNBASE : KERNBASE.toNat = 2147483648 := rfl

@[simp] theorem toNat_PHYSTOP : PHYSTOP.toNat = 234881024 := rfl

@[simp] theorem toNat_KERNLINK : KERNLINK.toNat = 2148532224 := rfl

/-- Masking off the low twelve bits rounds down to a page. -/
theorem and_not_low (x : Nat) (hx : x < 2 ^ 32) : x &&& (2 ^ 32 - 2 ^ 12) = x / 4096 * 4096 := by
  refine Nat.eq_of_testBit_eq fun i => ?_
  have h : x / 4096 * 4096 = 2 ^ 12 * (x / 2 ^ 12) := by omega
  rw [h, Nat.testBit_and, Nat.testBit_two_pow_mul, Nat.testBit_div_two_pow,
    show 2 ^ 32 - 2 ^ 12 = 2 ^ 12 * (2 ^ 20 - 1) from rfl, Nat.testBit_two_pow_mul,
    Nat.testBit_two_pow_sub_one]
  rcases Nat.lt_or_ge i 12 with hi | hi
  · simp [Nat.not_le.2 hi]
  · rcases Nat.lt_or_ge i 32 with hi' | hi'
    · simp [hi, show i - 12 < 20 by omega]
    · have hb : x.testBit i = false :=
        Nat.testBit_eq_false_of_lt (hx.trans_le (Nat.pow_le_pow_right (by decide) hi'))
      simp [hi, hb]

theorem toNat_PGROUNDDOWN (a : UInt32) : (PGROUNDDOWN a).toNat = a.toNat / 4096 * 4096 := by
  rw [PGROUNDDOWN, UInt32.toNat_and]
  exact and_not_low a.toNat a.toNat_lt

theorem toNat_PGROUNDUP {sz : UInt32} (h : sz.toNat + 4095 < 2 ^ 32) :
    (PGROUNDUP sz).toNat = npages sz * 4096 := by
  have hr : (PGROUNDUP sz).toNat = (sz + PGSIZE - 1).toNat / 4096 * 4096 := toNat_PGROUNDDOWN _
  have hs : (sz + PGSIZE - 1).toNat = sz.toNat + 4095 := by
    rw [UInt32.toNat_sub, UInt32.toNat_add, toNat_PGSIZE, UInt32.toNat_one]
    omega
  rw [hr, hs, npages]

/-- A size below the kernel is rounded without a carry. -/
theorem toNat_PGROUNDUP_of_le {sz : UInt32} (h : sz ≤ KERNBASE) :
    (PGROUNDUP sz).toNat = npages sz * 4096 := by
  rw [UInt32.le_iff_toNat_le, toNat_KERNBASE] at h
  exact toNat_PGROUNDUP (by omega)

theorem aligned_PGROUNDDOWN (a : UInt32) : Aligned (PGROUNDDOWN a) := by
  rw [Aligned, toNat_PGROUNDDOWN]
  omega

theorem aligned_PGROUNDUP (sz : UInt32) : Aligned (PGROUNDUP sz) := aligned_PGROUNDDOWN _

theorem Aligned.toNat_eq {va : UInt32} (h : Aligned va) : va.toNat = vpn va * 4096 := by
  rw [Aligned] at h
  rw [vpn]
  omega

theorem Aligned.PGROUNDDOWN_eq {va : UInt32} (h : Aligned va) : PGROUNDDOWN va = va := by
  rw [← UInt32.toNat_inj, toNat_PGROUNDDOWN, h.toNat_eq, vpn]
  omega

/-- The next page, below the end of the address space. -/
theorem toNat_add_PGSIZE {va : UInt32} (h : va.toNat < 2 ^ 32 - 4096) :
    (va + PGSIZE).toNat = va.toNat + 4096 := by
  rw [UInt32.toNat_add, toNat_PGSIZE]
  omega

theorem Aligned.add_PGSIZE {va : UInt32} (h : Aligned va) : Aligned (va + PGSIZE) := by
  rw [Aligned] at h ⊢
  rw [UInt32.toNat_add, toNat_PGSIZE]
  omega

/-! ## Indices -/

theorem vpn_lt (va : UInt32) : vpn va < 1048576 := by
  have h := va.toNat_lt
  rw [vpn]
  omega

/-- The number of the next page. -/
theorem vpn_add_PGSIZE {va : UInt32} (h : vpn va + 1 < 1048576) :
    vpn (va + PGSIZE) = vpn va + 1 := by
  rw [vpn] at h ⊢
  rw [vpn, toNat_add_PGSIZE (by omega)]
  omega

theorem PDX_eq (va : UInt32) : PDX va = Fin.ofNat 1024 (vpn va / 1024) := by
  refine Fin.ext ?_
  simp only [PDX, NPDENTRIES, Fin.val_ofNat, UInt32.toNat_and, UInt32.toNat_shiftRight]
  rw [show (UInt32.toNat 22 % 32) = 22 from rfl, show UInt32.toNat 0x3FF = 2 ^ 10 - 1 from rfl,
    Nat.and_two_pow_sub_one_eq_mod, Nat.shiftRight_eq_div_pow, vpn]
  omega

theorem PTX_eq (va : UInt32) : PTX va = Fin.ofNat 1024 (vpn va) := by
  refine Fin.ext ?_
  simp only [PTX, NPTENTRIES, Fin.val_ofNat, UInt32.toNat_and, UInt32.toNat_shiftRight]
  rw [show (UInt32.toNat 12 % 32) = 12 from rfl, show UInt32.toNat 0x3FF = 2 ^ 10 - 1 from rfl,
    Nat.and_two_pow_sub_one_eq_mod, Nat.shiftRight_eq_div_pow, vpn]
  omega

/-! ## Entries -/

theorem toNat_PTE_ADDR (pte : UInt32) : (PTE_ADDR pte).toNat = pte.toNat / 4096 * 4096 := by
  rw [PTE_ADDR, UInt32.toNat_and]
  exact and_not_low pte.toNat pte.toNat_lt

theorem present_iff {pte : UInt32} : Present pte ↔ pte.toNat % 2 = 1 := by
  have h : (pte &&& PTE_P).toNat = pte.toNat % 2 := by
    rw [UInt32.toNat_and]
    exact Nat.and_two_pow_sub_one_eq_mod _ 1
  rw [Present, Ne, ← UInt32.toNat_inj, h, UInt32.toNat_zero]
  omega

@[simp] theorem not_present_zero : ¬ Present 0 := by decide

/-- An aligned address and flags share no bit. -/
theorem Aligned.toNat_or {pa flags : UInt32} (h : Aligned pa) (hf : flags.toNat < 4096) :
    (pa ||| flags).toNat = pa.toNat + flags.toNat := by
  have hs := Nat.shiftLeft_add_eq_or_of_lt (i := 12) hf (vpn pa)
  rw [Nat.shiftLeft_eq] at hs
  rw [UInt32.toNat_or, h.toNat_eq]
  exact hs.symm

theorem toNat_or_PTE_P_lt {perm : UInt32} (h : perm.toNat < 4096) : (perm ||| PTE_P).toNat < 4096 := by
  rw [UInt32.toNat_or]
  exact Nat.or_lt_two_pow h (n := 12) (by decide)

/-- The entry for a page. -/
theorem toNat_entry {pa perm : UInt32} (h : Aligned pa) (hp : perm.toNat < 4096) :
    (pa ||| perm ||| PTE_P).toNat = pa.toNat + (perm ||| PTE_P).toNat := by
  rw [UInt32.or_assoc, h.toNat_or (toNat_or_PTE_P_lt hp)]

theorem PTE_ADDR_entry {pa perm : UInt32} (h : Aligned pa) (hp : perm.toNat < 4096) :
    PTE_ADDR (pa ||| perm ||| PTE_P) = pa := by
  have hf := toNat_or_PTE_P_lt hp
  rw [← UInt32.toNat_inj, toNat_PTE_ADDR, toNat_entry h hp]
  rw [Aligned] at h
  omega

theorem present_entry {pa perm : UInt32} : Present (pa ||| perm ||| PTE_P) := by
  rw [present_iff, UInt32.toNat_or]
  have h : (1 : Nat) % 2 = 1 := rfl
  change ((pa ||| perm).toNat ||| 1) % 2 = 1
  rw [Nat.or_mod_two_eq_one]
  exact .inr h

end TronBoss.Vm
