import TronBoss.Lib.Bytes
import TronBoss.Lib.Copy

/-!
# The two `memmove`s

`memmove` of the kernel (`string.c`) and of the user library (`ulib.c`). The kernel looks at where the
ranges are and copies from the end that is safe; the library always copies upwards. It is right, and
agrees with the kernel, unless the destination starts inside the source and the bytes do not happen to
repeat.
-/

namespace TronBoss

open Lib

/-- The bytes of an address space. -/
abbrev Memory : Type := UInt32 → UInt8

/-- `memmove` of `string.c`: what it returns, and the memory after it. -/
def Kernel.memmove (dst src n : UInt32) (m : Memory) : UInt32 × Memory :=
  if src < dst ∧ src + n > dst then (dst, copyDown n.toNat (dst + n) (src + n) m)
  else (dst, copyUp n.toNat dst src m)

/-- `memmove` of `ulib.c`. -/
def Ulib.memmove (vdst vsrc : UInt32) (n : Int32) (m : Memory) : UInt32 × Memory :=
  (vdst, copyUp n.toInt.toNat vdst vsrc m)

section
variable {dst src : UInt32} {m : Memory}

theorem Kernel.memmove_fst {n : UInt32} : (Kernel.memmove dst src n m).1 = dst := by
  unfold memmove
  split
  · rfl
  · rfl

/-- The kernel moves the bytes, wherever the ranges are. -/
theorem Kernel.memmove_moved {n : UInt32} (hsrc : src.toNat + n.toNat ≤ 2 ^ 32)
    (hdst : dst.toNat + n.toNat ≤ 2 ^ 32) :
    Moved n.toNat dst src m (Kernel.memmove dst src n m).2 := by
  have hn := n.toNat_lt
  rw [memmove]
  split
  · next h =>
    have hlt := UInt32.lt_iff_toNat_lt.1 h.1
    have hdown := moved_copyDown (d := dst) (s := src) (m := m) hn.le fun i _ hi he => ?_
    · rwa [UInt32.ofNat_toNat] at hdown
    · have := congrArg UInt32.toNat he
      rw [toNat_add_ofNat, Nat.mod_eq_of_lt (by omega)] at this
      omega
  · next h =>
    refine moved_copyUp hn.le fun i h0 hi he => h ?_
    have hi' : dst.toNat = src.toNat + i := by
      rw [he, toNat_add_ofNat, Nat.mod_eq_of_lt (by omega)]
    rw [gt_iff_lt, UInt32.lt_iff_toNat_lt, UInt32.lt_iff_toNat_lt, UInt32.toNat_add]
    omega

/-- The library moves the bytes as the kernel does just when a destination above the source has its
new bytes already where the two ranges overlap. -/
theorem memmoves_agree_iff {n : Int32} (m : Memory) (hn : 0 ≤ n)
    (hsrc : src.toNat + n.toInt.toNat ≤ 2 ^ 32) (hdst : dst.toNat + n.toInt.toNat ≤ 2 ^ 32) :
    (Ulib.memmove dst src n m = Kernel.memmove dst src n.toUInt32 m ∧
      Moved n.toInt.toNat dst src m (Kernel.memmove dst src n.toUInt32 m).2) ↔
    (src < dst → ∀ i, dst.toNat + i < src.toNat + n.toInt.toNat →
      m (dst + .ofNat i) = m (src + .ofNat i)) := by
  have hpos : 0 ≤ n.toInt := Int32.le_iff_toInt_le.1 hn
  have hmax := n.toInt_lt
  have hcount : n.toUInt32.toNat = n.toInt.toNat := by
    rw [toNat_toUInt32]
    omega
  have hkernel : Moved n.toInt.toNat dst src m (Kernel.memmove dst src n.toUInt32 m).2 := by
    rw [← hcount] at hsrc hdst ⊢
    exact Kernel.memmove_moved hsrc hdst
  have hright : Ulib.memmove dst src n m = Kernel.memmove dst src n.toUInt32 m ↔
      Moved n.toInt.toNat dst src m (copyUp n.toInt.toNat dst src m) := by
    rw [Prod.ext_iff, Kernel.memmove_fst]
    refine ⟨fun h => ?_, fun h => ⟨rfl, h.unique hkernel⟩⟩
    rw [← h.2] at hkernel
    exact hkernel
  rw [and_iff_left hkernel, hright]
  have hlt := dst.toNat_lt
  by_cases hup : src < dst
  · rw [UInt32.lt_iff_toNat_lt] at hup
    obtain ⟨k, hk⟩ := Nat.exists_eq_add_of_lt hup
    obtain rfl : dst = src + .ofNat (k + 1) := by
      rw [← UInt32.toNat_inj, toNat_add_ofNat, Nat.mod_eq_of_lt (by omega)]
      omega
    rw [moved_copyUp_iff k.succ_pos (by omega), forall_prop_of_true (UInt32.lt_iff_toNat_lt.2 hup)]
    refine forall_congr' fun i => ?_
    rw [hk, Nat.add_comm (k + 1) i, add_ofNat_add]
    exact imp_congr_left (by omega)
  · refine iff_of_true (moved_copyUp (by omega) fun i h0 hi he => hup ?_) fun h => absurd h hup
    rw [UInt32.lt_iff_toNat_lt, he, toNat_add_ofNat, Nat.mod_eq_of_lt (by omega)]
    omega

/-- One byte down, onto a part of the source. -/
theorem memmoves_agree_down :
    Ulib.memmove 0 1 3 UInt32.toUInt8 = Kernel.memmove 0 1 3 UInt32.toUInt8 ∧
      Moved 3 0 1 UInt32.toUInt8 (Kernel.memmove 0 1 3 UInt32.toUInt8).2 :=
  (@memmoves_agree_iff 0 1 3 UInt32.toUInt8 (by decide) (by decide) (by decide)).2 fun hlt =>
    absurd hlt (by decide)

/-- One byte up, the kernel leaves `0, 0, 1` where the library leaves `0, 0, 0`. -/
theorem memmoves_differ_upwards :
    (Kernel.memmove 1 0 2 UInt32.toUInt8).2 2 = 1 ∧ (Ulib.memmove 1 0 2 UInt32.toUInt8).2 2 = 0 := by
  decide

end

end TronBoss
