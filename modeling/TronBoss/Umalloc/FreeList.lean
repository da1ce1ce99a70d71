import TronBoss.Lib.Intervals
import TronBoss.Umalloc.Umalloc

/-!
# The free list

The free blocks lie in memory in the order of their addresses, each with its size and a pointer to
the next one, and the last one points back to `base`. `Seg` is a part of the list and `Ring` the
whole of it. Both calls change the list by writing headers, so the lemmas here say what a write of
one header does to the list: how a block is put in front of a part of it (`Seg.attach`), and how one
is taken out (`Ring.carve`).
-/

namespace TronBoss.Umalloc

open Lib List

/-! ## Writing a header -/

/-- Only the bytes of some places have changed. -/
structure Only (S : Nat → Prop) (h h' : Heap) : Prop where
  mem : ∀ x, ¬ S x → h'.mem.get x = h.mem.get x
  top : h'.top = h.top
  areas : h'.areas = h.areas
  sbrks : h'.sbrks = h.sbrks

/-- The bytes of the header at `p`. -/
abbrev Hdr (p x : Nat) : Prop := InInterval x (p, 8)

section
variable {h h' h'' : Heap} {p q v : Nat} {S T : Nat → Prop}

theorem Only.refl (h : Heap) : Only S h h := ⟨fun _ _ => rfl, rfl, rfl, rfl⟩

theorem Only.trans (h1 : Only S h h') (h2 : Only S h' h'') : Only S h h'' where
  mem x hx := (h2.mem x hx).trans (h1.mem x hx)
  top := h2.top.trans h1.top
  areas := h2.areas.trans h1.areas
  sbrks := h2.sbrks.trans h1.sbrks

theorem Only.mono (h1 : Only S h h') (hS : ∀ x, S x → T x) : Only T h h' :=
  { h1 with mem := fun x hx => h1.mem x fun hs => hx (hS x hs) }

theorem only_write32 {off : Nat} (hoff : p ≤ off ∧ off + 4 ≤ p + 8) (v : UInt32) :
    Only (Hdr p) h { h with mem := h.mem.write32 off v } where
  mem x hx := by
    rcases Nat.lt_or_ge x (2 ^ 32) with hlt | hge
    · rw [Bytes.write32, Bytes.get_write hlt, if_neg]
      rw [length_leBytes]
      simp only [InInterval] at hx
      omega
    · rw [Bytes.get, dif_neg (by omega), Bytes.get, dif_neg (by omega)]
  top := rfl
  areas := rfl
  sbrks := rfl

theorem only_setPtr : Only (Hdr p) h (h.setPtr p v) := only_write32 ⟨by omega, by omega⟩ _

theorem only_setSize : Only (Hdr p) h (h.setSize p v) := only_write32 ⟨by omega, by omega⟩ _

theorem read32_congr {off : Nat} (hq : ∀ x, q ≤ x → x < q + 8 → h'.mem.get x = h.mem.get x)
    (hoff : q ≤ off ∧ off + 4 ≤ q + 8) : h'.mem.read32 off = h.mem.read32 off := by
  rw [Bytes.read32, Bytes.read32, Bytes.read, Bytes.read]
  congr 2
  refine map_congr_left fun j hj => hq _ ?_ ?_
  · omega
  · rw [mem_range] at hj
    omega

theorem size_congr (hq : ∀ x, q ≤ x → x < q + 8 → h'.mem.get x = h.mem.get x) :
    h'.size q = h.size q := by
  rw [Heap.size, Heap.size, read32_congr hq ⟨by omega, by omega⟩]

theorem Only.ptr (ho : Only S h h') (hq : ∀ x, q ≤ x → x < q + 8 → ¬ S x) : h'.ptr q = h.ptr q := by
  rw [Heap.ptr, Heap.ptr, read32_congr (fun x hx hx' => ho.mem x (hq x hx hx')) ⟨by omega, by omega⟩]

theorem Only.size (ho : Only S h h') (hq : ∀ x, q ≤ x → x < q + 8 → ¬ S x) :
    h'.size q = h.size q :=
  size_congr fun x hx hx' => ho.mem x (hq x hx hx')

theorem toNat_ofNat32 (hv : v < 2 ^ 32) : (UInt32.ofNat v).toNat = v := by
  rw [UInt32.toNat_ofNat', Nat.mod_eq_of_lt hv]

section
variable (hp : p + 8 ≤ 2 ^ 32)
include hp

theorem ptr_setPtr (hv : v < 2 ^ 32) : (h.setPtr p v).ptr p = v := by
  rw [Heap.ptr, Heap.setPtr, Bytes.read32_write32 (by omega), toNat_ofNat32 hv]

theorem size_setPtr : (h.setPtr p v).size p = h.size p := by
  rw [Heap.size, Heap.setPtr, Bytes.read32_write32_of_disjoint (by omega) (by omega), Heap.size]

theorem size_setSize (hv : v < 2 ^ 32) : (h.setSize p v).size p = v := by
  rw [Heap.size, Heap.setSize, Bytes.read32_write32 (by omega), toNat_ofNat32 hv]

theorem ptr_setSize : (h.setSize p v).ptr p = h.ptr p := by
  rw [Heap.ptr, Heap.setSize, Bytes.read32_write32_of_disjoint (by omega) (by omega), Heap.ptr]

end

end

/-! ## Parts of the list -/

/-- The block ends before the other one starts, with memory in between. -/
def Before (b c : Block) : Prop := b.1 + 8 ≤ c.1 ∧ b.1 + 8 * b.2 < c.1

/-- The memory of some blocks. -/
def bytes (bs : List Block) : List (Nat × Nat) := bs.map fun b => (b.1, 8 * b.2)

/-- The block with its header lies below the break. -/
def Below (top : Nat) (b : Block) : Prop := b.1 + 8 ≤ top ∧ b.1 + 8 * b.2 ≤ top

/-- The blocks are linked one after the other, the last one to `z`. -/
structure Seg (h : Heap) (bs : List Block) (z : Nat) : Prop where
  walk : Walk h.ptr (bs.map Prod.fst) z
  sizes : ∀ b ∈ bs, h.size b.1 = b.2
  order : bs.Pairwise Before
  below : ∀ b ∈ bs, Below h.top b

/-- Where a list of blocks starts. -/
def start (bs : List Block) (z : Nat) : Nat := (bs.map Prod.fst).headD z

section
variable {h h' : Heap} {bs cs : List Block} {a b : Block} {z : Nat} {S : Nat → Prop}

theorem Seg.congr (hs : Seg h bs z) (ho : Only S h h')
    (hS : ∀ b ∈ bs, ∀ x, b.1 ≤ x → x < b.1 + 8 → ¬ S x) : Seg h' bs z where
  walk := by
    refine hs.walk.congr fun p hp => ?_
    obtain ⟨b, hb, rfl⟩ := mem_map.1 hp
    exact ho.ptr (hS b hb)
  sizes b hb := (ho.size (hS b hb)).trans (hs.sizes b hb)
  order := hs.order
  below := by
    rw [ho.top]
    exact hs.below

theorem seg_append (hs : Seg h bs (start cs z)) (hs' : Seg h cs z)
    (hord : ∀ b ∈ bs, ∀ c ∈ cs, Before b c) : Seg h (bs ++ cs) z where
  walk := by
    rw [map_append]
    exact walk_append.2 ⟨hs.walk, hs'.walk⟩
  sizes b hb := (mem_append.1 hb).elim (hs.sizes b) (hs'.sizes b)
  order := pairwise_append.2 ⟨hs.order, hs'.order, hord⟩
  below b hb := (mem_append.1 hb).elim (hs.below b) (hs'.below b)

theorem Seg.left (hs : Seg h (bs ++ cs) z) : Seg h bs (start cs z) where
  walk := by
    have hw := hs.walk
    rw [map_append] at hw
    exact (walk_append.1 hw).1
  sizes b hb := hs.sizes b (mem_append_left cs hb)
  order := (pairwise_append.1 hs.order).1
  below b hb := hs.below b (mem_append_left cs hb)

theorem Seg.right (hs : Seg h (bs ++ cs) z) : Seg h cs z where
  walk := by
    have hw := hs.walk
    rw [map_append] at hw
    exact (walk_append.1 hw).2
  sizes b hb := hs.sizes b (mem_append_right bs hb)
  order := (pairwise_append.1 hs.order).2.1
  below b hb := hs.below b (mem_append_right bs hb)

theorem Seg.tail (hs : Seg h (b :: bs) z) : Seg h bs z := @Seg.right h [b] bs z hs

theorem Seg.ptr_eq (hs : Seg h (b :: bs) z) : h.ptr b.1 = start bs z := hs.walk.1

/-- A block in front of a part of the list. -/
theorem Seg.cons (hs : Seg h bs z) (hptr : h.ptr b.1 = start bs z) (hsize : h.size b.1 = b.2)
    (hbelow : Below h.top b) (hord : ∀ c ∈ bs, Before b c) : Seg h (b :: bs) z where
  walk := ⟨hptr, hs.walk⟩
  sizes := forall_mem_cons.2 ⟨hsize, hs.sizes⟩
  order := pairwise_cons.2 ⟨hord, hs.order⟩
  below := forall_mem_cons.2 ⟨hbelow, hs.below⟩

end

/-! ## Putting a block in front -/

/-- Both `if`s of `free`: the block `a` becomes the one before `b`, or the two become one. -/
def Heap.attach (h : Heap) (a b : Nat) : Heap :=
  if plus a (h.size a) = b then (h.setSize a (h.size a + h.size b)).setPtr a
    ((h.setSize a (h.size a + h.size b)).ptr b)
  else h.setPtr a b

/-- How a block meets the ones behind it: it is merged with the first one or it is not. -/
inductive Joins (a : Block) : List Block → Block → List Block → Prop where
  | link {l : List Block} : Joins a l a l
  | merge {c : Block} {l : List Block} (hc : c.1 = a.1 + 8 * a.2) :
    Joins a (c :: l) (a.1, a.2 + c.2) l

section
variable {h : Heap} {l l' : List Block} {a a' b : Block} {z x : Nat}

theorem Joins.cover (hj : Joins a l a' l') :
    cover (bytes (a' :: l')) x = cover (bytes (a :: l)) x := by
  cases hj with
  | link => rfl
  | @merge c _ hc =>
    simp only [bytes, map_cons, Nat.mul_add]
    rw [cover_split, ← hc]

theorem Joins.fst (hj : Joins a l a' l') : a'.1 = a.1 := by
  cases hj <;> rfl

theorem Joins.le (hj : Joins a l a' l') : a.2 ≤ a'.2 := by
  cases hj with
  | link => exact Nat.le_refl _
  | merge hc => exact Nat.le_add_right ..

/-- What was in front is in one of the blocks. -/
theorem Joins.exists_le (hj : Joins a (b :: l) a' l') : ∃ c ∈ a' :: l', b.2 ≤ c.2 := by
  cases hj with
  | link => exact ⟨b, by simp, Nat.le_refl _⟩
  | merge hc => exact ⟨_, mem_cons_self, Nat.le_add_left ..⟩

theorem Joins.units (hj : Joins a l a' l') (ha : 0 < a.2) (hl : ∀ c ∈ l, 0 < c.2) :
    ∀ c ∈ a' :: l', 0 < c.2 := by
  cases hj with
  | link => exact forall_mem_cons.2 ⟨ha, hl⟩
  | merge hc =>
    refine forall_mem_cons.2 ⟨Nat.add_pos_left ha _, fun c hc => ?_⟩
    exact hl c (mem_cons_of_mem _ hc)

theorem Joins.mem (hj : Joins a l a' l') (hb : b ∈ l') : b ∈ l := by
  cases hj with
  | link => exact hb
  | merge hc => exact mem_cons_of_mem _ hb

/-- A pointer behind a block that lies below the break is not rounded, but for the last one. -/
theorem plus_eq_iff {c : Nat} (ha : a.1 + 8 * a.2 ≤ 2 ^ 32) (hc : 0 < c) (hc' : c < 2 ^ 32) :
    plus a.1 a.2 = c ↔ a.1 + 8 * a.2 = c := by
  rw [plus]
  omega

theorem Seg.start_pos (hs : Seg h l z) (htop : h.top ≤ 2 ^ 32) (hz : 0 < z ∧ z < 2 ^ 32)
    (hbefore : ∀ b ∈ l, a.1 + 8 ≤ b.1) : 0 < start l z ∧ start l z < 2 ^ 32 := by
  cases l with
  | nil => exact hz
  | cons c l =>
    have hc := (hs.below c mem_cons_self).1
    have hc' := hbefore c mem_cons_self
    change 0 < c.1 ∧ c.1 < 2 ^ 32
    omega

theorem not_hdr {p q x : Nat} (h : p + 8 ≤ q ∨ q + 8 ≤ p) (hx : q ≤ x) (hx' : x < q + 8) :
    ¬ Hdr p x := by
  simp only [InInterval]
  omega

/-- The block is linked to the ones behind it. -/
theorem Seg.link (hs : Seg h l z) (htop : h.top ≤ 2 ^ 32) (hz : 0 < z ∧ z < 2 ^ 32)
    (hsize : h.size a.1 = a.2) (hbelow : Below h.top a) (hbefore : ∀ b ∈ l, Before a b) :
    Seg (h.setPtr a.1 (start l z)) (a :: l) z := by
  have hlt : a.1 + 8 ≤ 2 ^ 32 := Nat.le_trans hbelow.1 htop
  have hstart := hs.start_pos htop hz fun b hb => (hbefore b hb).1
  have hs' := hs.congr (only_setPtr (p := a.1) (v := start l z)) fun b hb _ =>
    not_hdr (.inl (hbefore b hb).1)
  exact hs'.cons (ptr_setPtr hlt hstart.2) ((size_setPtr hlt).trans hsize) hbelow hbefore

/-- The block takes in the one behind it. -/
theorem Seg.merge (hs : Seg h (b :: l) z) (htop : h.top ≤ 2 ^ 32) (hz : 0 < z ∧ z < 2 ^ 32)
    (hsize : h.size a.1 = a.2) (hab : a.1 + 8 * a.2 = b.1) (hab' : a.1 + 8 ≤ b.1) :
    Seg ((h.setSize a.1 (h.size a.1 + h.size b.1)).setPtr a.1
      ((h.setSize a.1 (h.size a.1 + h.size b.1)).ptr b.1)) ((a.1, a.2 + b.2) :: l) z := by
  have hb := hs.below b mem_cons_self
  have hbefore : ∀ c ∈ l, Before b c := (pairwise_cons.1 hs.order).1
  have hlt : a.1 + 8 ≤ 2 ^ 32 := by
    have := hb.1
    omega
  have hbelow : Below h.top (a.1, a.2 + b.2) := by
    obtain ⟨hb1, hb2⟩ := hb
    constructor
    · omega
    · change a.1 + 8 * (a.2 + b.2) ≤ h.top
      omega
  have hptr : (h.setSize a.1 (h.size a.1 + h.size b.1)).ptr b.1 = start l z :=
    (only_setSize.ptr fun _ => not_hdr (.inl hab')).trans hs.ptr_eq
  have hs' := hs.tail.congr (only_setSize (p := a.1) (v := h.size a.1 + h.size b.1)) fun c hc _ =>
    not_hdr (.inl (by have := (hbefore c hc).1; omega))
  rw [hptr]
  refine hs'.link htop hz ?_ hbelow fun c hc => ?_
  · rw [hsize, hs.sizes b mem_cons_self]
    have := hbelow.2
    exact size_setSize hlt (by omega)
  · obtain ⟨hc1, hc2⟩ := hbefore c hc
    constructor
    · omega
    · change a.1 + 8 * (a.2 + b.2) < c.1
      omega

/-- `Heap.attach` puts a block in front of a part of the list that lies behind it. -/
theorem Seg.attach (hs : Seg h l z) (htop : h.top ≤ 2 ^ 32) (hz : 0 < z ∧ z < 2 ^ 32)
    (hsize : h.size a.1 = a.2) (hbelow : Below h.top a)
    (hbefore : ∀ b ∈ l, a.1 + 8 ≤ b.1 ∧ a.1 + 8 * a.2 ≤ b.1)
    (hend : l = [] → a.1 + 8 * a.2 ≠ z) :
    ∃ a' l', Joins a l a' l' ∧ Seg (h.attach a.1 (start l z)) (a' :: l') z ∧
      Only (Hdr a.1) h (h.attach a.1 (start l z)) := by
  have hstart := hs.start_pos htop hz fun b hb => (hbefore b hb).1
  have hplus := plus_eq_iff (Nat.le_trans hbelow.2 htop) hstart.1 hstart.2
  rw [← hsize] at hplus
  rw [Heap.attach]
  split
  · rename_i hmerge
    rw [hplus, hsize] at hmerge
    cases l with
    | nil => exact (hend rfl hmerge).elim
    | cons c l =>
      refine ⟨_, l, .merge hmerge.symm, ?_, only_setSize.trans only_setPtr⟩
      exact hs.merge htop hz hsize hmerge (hbefore c mem_cons_self).1
  · rename_i hlink
    rw [hplus, hsize] at hlink
    refine ⟨a, l, .link, hs.link htop hz hsize hbelow fun b hb => ?_, only_setPtr⟩
    cases l with
    | nil => cases hb
    | cons c l =>
      obtain ⟨hb1, hb2⟩ := hbefore b hb
      obtain ⟨hc1, hc2⟩ := hbefore c mem_cons_self
      change a.1 + 8 * a.2 ≠ c.1 at hlink
      refine ⟨hb1, ?_⟩
      rcases mem_cons.1 hb with rfl | hb
      · omega
      · have hcb := (pairwise_cons.1 hs.order).1 b hb
        have := hcb.1
        omega

end

end TronBoss.Umalloc
