import Mathlib.Data.Nat.Bitwise
import Mathlib.Tactic.Ring

/-!
# Fixed-size byte arrays and little-endian fields

`Bytes n` is a memory of `n` bytes. A C structure that lives in such a memory is read and written
as a range of bytes, so all that a layout proof needs is how a range read meets a range write: at
the same place (`read_write`), or next to it (`read_write_of_disjoint`). `leBytes` and `leNat`
convert between numbers and their little-endian bytes, `field` reads a number out of an encoded
record, and `bit`, `setBit`, `clearBit` see the memory as a bitmap.
-/

namespace Lib

/-- An address at a distance, with the wrap around. -/
theorem toNat_add_ofNat (p : UInt32) (i : Nat) : (p + .ofNat i).toNat = (p.toNat + i) % 2 ^ 32 := by
  rw [UInt32.toNat_add, UInt32.toNat_ofNat', Nat.add_mod_mod]

/-! ## Little-endian numbers -/

/-- The `w` low bytes of a number, the least significant one first. -/
def leBytes : Nat → Nat → List UInt8
  | 0, _ => []
  | w + 1, v => UInt8.ofNat v :: leBytes w (v / 256)

/-- The number with the given little-endian bytes. -/
def leNat : List UInt8 → Nat
  | [] => 0
  | b :: bs => b.toNat + 256 * leNat bs

@[simp] theorem length_leBytes (w v : Nat) : (leBytes w v).length = w := by
  induction w generalizing v with
  | zero => rfl
  | succ w ih => simp [leBytes, ih]

/-- Encoding and decoding keeps what fits into the width. -/
theorem leNat_leBytes (w v : Nat) : leNat (leBytes w v) = v % 256 ^ w := by
  induction w generalizing v with
  | zero => simp [leBytes, leNat, Nat.mod_one]
  | succ w ih =>
    rw [leBytes, leNat, ih, pow_succ', Nat.mod_mul]
    simp

@[simp] theorem leNat_leBytes_of_lt {w v : Nat} (h : v < 256 ^ w) : leNat (leBytes w v) = v := by
  rw [leNat_leBytes, Nat.mod_eq_of_lt h]

/-- An `int` as an unsigned number. -/
theorem toNat_toUInt32 (n : Int32) : n.toUInt32.toNat = (n.toInt % 2 ^ 32).toNat := by
  have h : n.toUInt32.toNat = n.toBitVec.toNat := rfl
  have hn : n.toInt = n.toBitVec.toInt := rfl
  rw [h, hn, BitVec.toInt_eq_toNat_cond]
  split <;> omega

/-! ## Records -/

/-- The number stored in `w` bytes at an offset of an encoded record. -/
def field (bs : List UInt8) (off w : Nat) : Nat := leNat ((bs.drop off).take w)

theorem field_leBytes {w v : Nat} (h : v < 256 ^ w) : field (leBytes w v) 0 w = v := by
  rw [field, List.drop_zero, List.take_of_length_le (by simp), leNat_leBytes_of_lt h]

theorem field_append_left {as bs : List UInt8} {off w : Nat} (h : off + w ≤ as.length) :
    field (as ++ bs) off w = field as off w := by
  rw [field, field, List.drop_append_of_le_length (by omega),
    List.take_append_of_le_length (by simp; omega)]

theorem field_append_right {as bs : List UInt8} {off w : Nat} (h : as.length ≤ off) :
    field (as ++ bs) off w = field bs (off - as.length) w := by
  rw [field, field, List.drop_append, List.drop_eq_nil_of_le h, List.nil_append]

/-- A field of an array of records of one size is a field of the record at that index. -/
theorem field_flatMap {α : Type*} {f : α → List UInt8} {w : Nat} (hf : ∀ x, (f x).length = w)
    (l : List α) {k : Nat} (hk : k < l.length) : field (l.flatMap f) (w * k) w = leNat (f l[k]) := by
  have hd : (l.flatMap f).drop (w * k) = (l.drop k).flatMap f := by
    induction k generalizing l with
    | zero => simp
    | succ k ih =>
      cases l with
      | nil => simp at hk
      | cons x l =>
        rw [Nat.mul_succ, Nat.add_comm, ← List.drop_drop, List.flatMap_cons,
          List.drop_left' (hf x), ih l (by simpa using hk)]
        rfl
  rw [field, hd, List.drop_eq_getElem_cons hk, List.flatMap_cons, List.take_left' (hf _)]

/-! ## Byte arrays -/

/-- A memory of `n` bytes. -/
abbrev Bytes (n : Nat) : Type := Fin n → UInt8

namespace Bytes

variable {n : Nat} (b : Bytes n)

/-- The memory of zero bytes. -/
def zero : Bytes n := fun _ => 0

/-- The byte at an address; outside of the memory it is zero. -/
def get (i : Nat) : UInt8 := if h : i < n then b ⟨i, h⟩ else 0

/-- The bytes of a range. -/
def read (off len : Nat) : List UInt8 := (List.range len).map fun j => b.get (off + j)

/-- The memory with a range of bytes replaced. -/
def write (off : Nat) (bs : List UInt8) : Bytes n := fun i =>
  if off ≤ i.val ∧ i.val < off + bs.length then bs.getD (i.val - off) 0 else b i

@[simp] theorem get_zero (i : Nat) : (zero : Bytes n).get i = 0 := by
  unfold get
  split <;> rfl

@[simp] theorem length_read (off len : Nat) : (b.read off len).length = len := by simp [read]

/-- A range in two parts. -/
theorem read_add (off m k : Nat) : b.read off (m + k) = b.read off m ++ b.read (off + m) k := by
  rw [read, List.range_add, List.map_append, List.map_map]
  congr 1
  refine List.map_congr_left fun j _ => ?_
  rw [Function.comp_apply, Nat.add_assoc]

variable {b} {bs : List UInt8} {off : Nat}

theorem get_write {i : Nat} (h : i < n) : (b.write off bs).get i =
      if off ≤ i ∧ i < off + bs.length then bs.getD (i - off) 0 else b.get i := by
  simp [get, write, h]

/-- A range reads what was written to it. -/
theorem read_write (h : off + bs.length ≤ n) : (b.write off bs).read off bs.length = bs := by
  refine List.ext_getElem (by simp) fun i h1 h2 => ?_
  have hi : off + i < n := by omega
  simp only [read, List.getElem_map, List.getElem_range, get_write hi]
  rw [if_pos (by omega), Nat.add_sub_cancel_left, List.getD_eq_getElem _ _ h2]

/-- A range is unchanged by a write next to it. -/
theorem read_write_of_disjoint {len off' : Nat} (hlen : off + len ≤ n)
    (h : off + len ≤ off' ∨ off' + bs.length ≤ off) :
    (b.write off' bs).read off len = b.read off len := by
  refine List.map_congr_left fun i hi => ?_
  rw [List.mem_range] at hi
  rw [get_write (by omega), if_neg (by omega)]

/-! ## Several writes -/

/-- The memory after writes at several places. -/
def writes (b : Bytes n) (l : List (Nat × List UInt8)) : Bytes n :=
  l.foldl (fun b x => b.write x.1 x.2) b

/-- Two writes at different places. -/
def Apart (x y : Nat × List UInt8) : Prop := x.1 + x.2.length ≤ y.1 ∨ y.1 + y.2.length ≤ x.1

theorem read_writes_of_apart {x : Nat × List UInt8} {l : List (Nat × List UInt8)}
    (hx : x.1 + x.2.length ≤ n) (h : ∀ y ∈ l, Apart x y) :
    (b.writes l).read x.1 x.2.length = b.read x.1 x.2.length := by
  induction l generalizing b with
  | nil => rfl
  | cons y l ih =>
    have hy := (List.forall_mem_cons.1 h).1
    rw [writes, List.foldl_cons]
    refine (ih (List.forall_mem_cons.1 h).2).trans (read_write_of_disjoint hx hy)

/-- Each place reads what was written to it. -/
theorem read_writes {x : Nat × List UInt8} {l : List (Nat × List UInt8)} (hl : l.Pairwise Apart)
    (hfit : ∀ y ∈ l, y.1 + y.2.length ≤ n) (hx : x ∈ l) :
    (b.writes l).read x.1 x.2.length = x.2 := by
  induction l generalizing b with
  | nil => cases hx
  | cons y l ih =>
    rw [List.pairwise_cons] at hl
    rw [List.forall_mem_cons] at hfit
    rw [writes, List.foldl_cons]
    rcases List.mem_cons.1 hx with rfl | hx
    · exact (read_writes_of_apart hfit.1 hl.1).trans (read_write hfit.1)
    · exact ih hl.2 hfit.2 hx

/-! ## Words -/

/-- The 32-bit word at an address. -/
def read32 (b : Bytes n) (off : Nat) : UInt32 := UInt32.ofNat (leNat (b.read off 4))

/-- The memory with a 32-bit word stored. -/
def write32 (b : Bytes n) (off : Nat) (v : UInt32) : Bytes n := b.write off (leBytes 4 v.toNat)

theorem read32_write32 {v : UInt32} (h : off + 4 ≤ n) : (b.write32 off v).read32 off = v := by
  have hr : (b.write off (leBytes 4 v.toNat)).read off (leBytes 4 v.toNat).length = _ :=
    read_write (by simpa using h)
  rw [length_leBytes] at hr
  rw [read32, write32, hr, leNat_leBytes_of_lt v.toNat_lt, UInt32.ofNat_toNat]

theorem read32_write32_of_disjoint {off' : Nat} {v : UInt32} (h : off + 4 ≤ n)
    (hd : off + 4 ≤ off' ∨ off' + 4 ≤ off) : (b.write32 off' v).read32 off = b.read32 off := by
  rw [read32, write32, read_write_of_disjoint h (by simpa using hd)]
  rfl

/-! ## Bits -/

/-- The mask of a bit in its byte. -/
def bitMask (i : Nat) : UInt8 := 1 <<< UInt8.ofNat (i % 8)

/-- The bit with the given number. -/
def bit (b : Bytes n) (i : Nat) : Bool := (b.get (i / 8) &&& bitMask i) != 0

/-- The memory with a bit set. -/
def setBit (b : Bytes n) (i : Nat) : Bytes n := b.write (i / 8) [b.get (i / 8) ||| bitMask i]

/-- The memory with a bit cleared. -/
def clearBit (b : Bytes n) (i : Nat) : Bytes n := b.write (i / 8) [b.get (i / 8) &&& ~~~ bitMask i]

theorem toNat_bitMask (i : Nat) : (bitMask i).toNat = 2 ^ (i % 8) := by
  have h : ∀ k : Fin 8, (1 <<< UInt8.ofNat k.val : UInt8).toNat = 2 ^ k.val := by decide
  exact h ⟨i % 8, Nat.mod_lt _ (by decide)⟩

theorem bit_eq_testBit (i : Nat) : b.bit i = (b.get (i / 8)).toNat.testBit (i % 8) := by
  have h : (b.get (i / 8) &&& bitMask i).toNat =
      ((b.get (i / 8)).toNat.testBit (i % 8)).toNat * 2 ^ (i % 8) := by
    rw [UInt8.toNat_and, toNat_bitMask, Nat.and_two_pow]
  rw [bit, bne, Bool.eq_iff_iff]
  simp [← UInt8.toNat_inj, h]

theorem bit_write_byte {i j : Nat} {v : UInt8} (hj : j < 8 * n) :
    (b.write (i / 8) [v]).bit j = if i / 8 = j / 8 then v.toNat.testBit (j % 8) else b.bit j := by
  rw [bit_eq_testBit, bit_eq_testBit, get_write (by omega)]
  split
  · rename_i h
    rw [List.length_singleton] at h
    rw [if_pos (by omega), show j / 8 - i / 8 = 0 by omega]
    rfl
  · rename_i h
    rw [List.length_singleton] at h
    rw [if_neg (by omega)]

/-- Setting a bit changes this bit only. -/
theorem bit_setBit {i j : Nat} (hj : j < 8 * n) :
    (b.setBit i).bit j = (decide (i = j) || b.bit j) := by
  rw [setBit, bit_write_byte hj]
  split
  · rename_i h
    have hd : decide (i % 8 = j % 8) = decide (i = j) := decide_eq_decide.2 (by omega)
    rw [UInt8.toNat_or, toNat_bitMask, Nat.testBit_or, Nat.testBit_two_pow, bit_eq_testBit, h,
      Bool.or_comm, hd]
  · rename_i h
    have hij : i ≠ j := fun hij => h (hij ▸ rfl)
    simp [hij]

/-- Clearing a bit changes this bit only. -/
theorem bit_clearBit {i j : Nat} (hj : j < 8 * n) :
    (b.clearBit i).bit j = (!decide (i = j) && b.bit j) := by
  rw [clearBit, bit_write_byte hj]
  split
  · rename_i h
    have hd : decide (i % 8 = j % 8) = decide (i = j) := decide_eq_decide.2 (by omega)
    have hm : (~~~ bitMask i).toNat = 2 ^ 8 - (2 ^ (i % 8) + 1) := by
      rw [UInt8.toNat_not, toNat_bitMask]
      simp only [UInt8.size]
      omega
    have hp : 2 ^ (i % 8) < 2 ^ 8 := Nat.pow_lt_pow_right (by decide) (by omega)
    rw [UInt8.toNat_and, hm, Nat.testBit_and, Nat.testBit_two_pow_sub_succ hp,
      Nat.testBit_two_pow, bit_eq_testBit, h, Bool.and_comm, hd]
    simp [show j % 8 < 8 by omega]
  · rename_i h
    have hij : i ≠ j := fun hij => h (hij ▸ rfl)
    simp [hij]

end Bytes

end Lib
