import TronBoss.File.UserBuffer

/-!
# The arguments of a system call

The helpers of `syscall.c` over the memory of a process as the kernel sees it: `mem` is every byte
that a kernel pointer can load, not only the bytes below `sz`.
-/

namespace TronBoss.Syscall

open Lib

/-- The process that makes a system call. -/
structure Image where
  mem : UInt32 → UInt8
  sz : UInt32
  /-- The user's stack pointer in the trap frame. -/
  esp : UInt32

/-- The four bytes at an address as a number. -/
def Image.word (m : Image) (addr : UInt32) : UInt32 :=
  UInt32.ofNat (leNat [m.mem addr, m.mem (addr + 1), m.mem (addr + 2), m.mem (addr + 3)])

def fetchint (m : Image) (addr : UInt32) : Option UInt32 :=
  if addr ≥ m.sz ∨ addr + 4 > m.sz then none else some (m.word addr)

/-- The loop of `fetchstr`, with the bytes that are left to `sz`. -/
def fetchstrLoop (mem : UInt32 → UInt8) : Nat → UInt32 → Option Nat
  | 0, _ => none
  | left + 1, s => if mem s = 0 then some 0 else (fetchstrLoop mem left (s + 1)).map (· + 1)

/-- `fetchstr`: the pointer and the length. -/
def fetchstr (m : Image) (addr : UInt32) : Option (UInt32 × Nat) :=
  if addr ≥ m.sz then none
  else (fetchstrLoop m.mem (m.sz - addr).toNat addr).map fun len => (addr, len)

def argint (m : Image) (n : Nat) : Option UInt32 :=
  fetchint m (m.esp + 4 + 4 * UInt32.ofNat n)

def argptr (m : Image) (n : Nat) (size : Int32) : Option UInt32 := do
  let i ← argint m n
  if File.argptr m.sz i size then return i else none

def argstr (m : Image) (n : Nat) : Option (UInt32 × Nat) := do
  let addr ← argint m n
  fetchstr m addr

/-- There is a NUL in the bytes from an address on that are below `sz`. -/
def Image.NulFrom (m : Image) (path : UInt32) : Prop :=
  ∃ a, path ≤ a ∧ a < m.sz ∧ m.mem a = 0

/-- A string that `fetchstr` accepts has its NUL inside the memory of the process. -/
theorem fetchstrLoop_nul {mem : UInt32 → UInt8} : ∀ {left : Nat} {s : UInt32} {len : Nat},
    s.toNat + left < 2 ^ 32 → fetchstrLoop mem left s = some len →
    ∃ a, s ≤ a ∧ a.toNat < s.toNat + left ∧ mem a = 0
  | left + 1, s, len, hfit, h => by
    rw [fetchstrLoop] at h
    split at h
    · next h0 => exact ⟨s, UInt32.le_refl s, by omega, h0⟩
    · obtain ⟨len', h', -⟩ := Option.map_eq_some_iff.1 h
      have hs : (s + 1).toNat = s.toNat + 1 := by
        rw [UInt32.toNat_add, UInt32.toNat_one, Nat.mod_eq_of_lt (by omega)]
      obtain ⟨a, hle, hlt, h0⟩ := fetchstrLoop_nul (by omega) h'
      rw [UInt32.le_iff_toNat_le] at hle
      exact ⟨a, by rw [UInt32.le_iff_toNat_le]; omega, by omega, h0⟩

/-- A string that `fetchstr` accepts has its NUL below `sz`. -/
theorem fetchstr_nul {m : Image} {addr path : UInt32} {len : Nat}
    (h : fetchstr m addr = some (path, len)) : m.NulFrom path := by
  unfold fetchstr at h
  split at h
  · cases h
  · next hlt =>
    obtain ⟨len', h', he⟩ := Option.map_eq_some_iff.1 h
    cases he
    rw [ge_iff_le, UInt32.le_iff_toNat_le, Nat.not_le] at hlt
    have hsub : (m.sz - addr).toNat = m.sz.toNat - addr.toNat :=
      UInt32.toNat_sub_of_le _ _ (UInt32.le_iff_toNat_le.2 hlt.le)
    have hsz := m.sz.toNat_lt
    obtain ⟨a, hle, ha, h0⟩ := fetchstrLoop_nul (by omega) h'
    exact ⟨a, hle, by rw [UInt32.lt_iff_toNat_lt]; omega, h0⟩

theorem argstr_nul {m : Image} {n : Nat} {path : UInt32} {len : Nat}
    (h : argstr m n = some (path, len)) : m.NulFrom path := by
  obtain ⟨addr, -, h⟩ := Option.bind_eq_some_iff.1 h
  exact fetchstr_nul h

end TronBoss.Syscall
