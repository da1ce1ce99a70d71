import TronBoss.Umalloc.FreeList

/-!
# What the two calls do to the free list

The whole free list with its roving start pointer. `free` puts a block into the list, and `malloc`
takes one out of it; each of them changes bytes of free blocks and of `base` only.
-/

namespace TronBoss.Umalloc

open Lib List

/-- The free blocks, in the order of their addresses. -/
structure Ring (base : Nat) (h : Heap) (bs : List Block) : Prop where
  seg : Seg h ((base, 0) :: bs) base
  units : ∀ b ∈ bs, 0 < b.2
  top_lt : h.top < 2 ^ 32
  pos : 0 < base
  freep : ∃ b ∈ (base, 0) :: bs, b.1 = h.freep

/-- The bytes of `base` and of some blocks. -/
def Own (base : Nat) (bs : List Block) (x : Nat) : Prop := Hdr base x ∨ 0 < cover (bytes bs) x

section
variable {base : Nat} {h h' : Heap} {bs xs ys : List Block} {b p : Block} {z : Nat}

theorem Seg.length_le (hs : Seg h (b :: bs) z) : b.1 + 8 * (bs.length + 1) ≤ h.top := by
  induction bs generalizing b with
  | nil => exact (hs.below b mem_cons_self).1
  | cons c bs ih =>
    have hc := ih hs.tail
    have hbc := ((pairwise_cons.1 hs.order).1 c mem_cons_self).1
    rw [length_cons]
    omega

section
variable (hr : Ring base h bs)
include hr

theorem Ring.top_le : h.top ≤ 2 ^ 32 := Nat.le_of_lt hr.top_lt

theorem Ring.base_lt : 0 < base ∧ base < 2 ^ 32 := by
  have hb := (hr.seg.below (base, 0) mem_cons_self).1
  have htop := hr.top_le
  exact ⟨hr.pos, by simp only at hb; omega⟩

/-- A header of the list belongs to a free block, or it is `base`. -/
theorem Ring.own_hdr (hp : p ∈ (base, 0) :: bs) {x : Nat}
    (hx : Hdr p.1 x) : Own base bs x := by
  rcases mem_cons.1 hp with rfl | hp
  · exact .inl hx
  · refine .inr (cover_pos.2 ⟨(p.1, 8 * p.2), mem_map_of_mem hp, ?_⟩)
    have hunits := hr.units p hp
    simp only [InInterval] at hx ⊢
    omega

/-- The list as it is walked from one of its blocks on. -/
theorem Ring.walk (hsplit : (base, 0) :: bs = xs ++ p :: ys) :
    Walk h.ptr (p.1 :: ((ys ++ xs).map Prod.fst)) p.1 := by
  have hw : Walk h.ptr (((base, 0) :: bs).map Prod.fst)
      ((((base, 0) :: bs).map Prod.fst).headD base) := hr.seg.walk
  rw [hsplit, map_append, map_cons] at hw
  rw [map_append]
  exact hw.rotate

/-- The blocks behind some block of the list have memory. -/
theorem Ring.units_right (hsplit : (base, 0) :: bs = xs ++ p :: ys) :
    ∀ c ∈ ys, 0 < c.2 := by
  intro c hc
  cases xs with
  | nil =>
    cases hsplit
    exact hr.units c hc
  | cons d xs =>
    cases hsplit
    exact hr.units c (by simp [hc])

end

/-! ## `free` -/

/-- The block is among the free ones: it is behind `base`, and it has memory in common with none. -/
structure Fits (base : Nat) (h : Heap) (bs : List Block) (b : Block) : Prop where
  size : h.size b.1 = b.2
  units : 0 < b.2
  base_le : base + 8 ≤ b.1
  le_top : b.1 + 8 * b.2 ≤ h.top
  apart : ∀ c ∈ bs, b.1 + 8 * b.2 ≤ c.1 ∨ c.1 + 8 * c.2 ≤ b.1

section
variable (hr : Ring base h bs)
include hr

/-- Every block of the list is before the block or behind it. -/
theorem Ring.before_or_behind (hf : Fits base h bs b)
    (hp : p ∈ (base, 0) :: bs) :
    (p.1 + 8 ≤ b.1 ∧ p.1 + 8 * p.2 ≤ b.1) ∨ b.1 + 8 * b.2 ≤ p.1 := by
  have hle := hf.base_le
  rcases mem_cons.1 hp with rfl | hp
  · exact .inl ⟨hle, by simp only; omega⟩
  · have hunits := hr.units p hp
    rcases hf.apart p hp with hlt | hlt
    · exact .inr hlt
    · exact .inl ⟨by omega, hlt⟩

/-- The loop of `free` stops where the block belongs. -/
theorem Ring.stops_iff (hf : Fits base h bs b)
    (hsplit : (base, 0) :: bs = xs ++ p :: ys) :
    h.stops b.1 p.1 = true ↔ p.1 < b.1 ∧ ∀ c ∈ ys, b.1 < c.1 := by
  have hs := hr.seg
  rw [hsplit] at hs
  have hptr := hs.right.ptr_eq
  have hle := hf.base_le
  have hpbase : base ≤ p.1 := by
    cases xs with
    | nil =>
      cases hsplit
      exact Nat.le_refl _
    | cons c xs =>
      cases hsplit
      have hord := (pairwise_cons.1 hs.order).1 p (by simp)
      have := hord.1
      omega
  rw [Heap.stops, hptr]
  cases ys with
  | nil =>
    simp only [start, map_nil, headD_nil, not_mem_nil, false_implies, implies_true,
      and_true, Bool.or_eq_true, Bool.and_eq_true, decide_eq_true_eq]
    omega
  | cons c ys =>
    have hpc := ((pairwise_cons.1 hs.right.order).1 c mem_cons_self).1
    have hcs := (pairwise_cons.1 hs.right.tail.order).1
    have hall : (∀ d ∈ c :: ys, b.1 < d.1) ↔ b.1 < c.1 := by
      refine ⟨fun hd => hd c mem_cons_self, fun hc d hd => ?_⟩
      rcases mem_cons.1 hd with rfl | hd
      · exact hc
      · have := (hcs d hd).1
        omega
    rw [hall]
    simp only [start, map_cons, headD_cons, Bool.or_eq_true, Bool.and_eq_true,
      decide_eq_true_eq]
    omega

/-- There is a place for the block. -/
theorem Ring.exists_place (hf : Fits base h bs b) :
    ∃ xs p ys, (base, 0) :: bs = xs ++ p :: ys ∧ p.1 < b.1 ∧ ∀ c ∈ ys, b.1 < c.1 := by
  have hbase : ((base, 0) : Block).1 < b.1 := by
    have := hf.base_le
    omega
  have hor : ∀ c ∈ bs, c.1 < b.1 ∨ b.1 < c.1 := by
    intro c hc
    have hunits := hf.units
    have := hr.before_or_behind hf (mem_cons_of_mem _ hc)
    omega
  have hord := hr.seg.order
  clear hr hf
  generalize ((base, 0) : Block) = a at *
  induction bs generalizing a with
  | nil => exact ⟨[], a, [], rfl, hbase, nofun⟩
  | cons c bs ih =>
    rcases hor c mem_cons_self with hc | hc
    · obtain ⟨xs, p, ys, hsplit, hp⟩ := ih (fun d hd => hor d (mem_cons_of_mem c hd)) c
        hc (pairwise_cons.1 hord).2
      exact ⟨a :: xs, p, ys, by rw [hsplit, cons_append], hp⟩
    · refine ⟨[], a, c :: bs, rfl, hbase, fun d hd => ?_⟩
      rcases mem_cons.1 hd with rfl | hd
      · exact hc
      · have hcd := ((pairwise_cons.1 (pairwise_cons.1 hord).2).1 d hd).1
        omega

/-- The loop of `free` finds the place of the block. -/
theorem Ring.seek (hf : Fits base h bs b) :
    ∃ xs p ys, (base, 0) :: bs = xs ++ p :: ys ∧ (p.1 < b.1 ∧ ∀ c ∈ ys, b.1 < c.1) ∧
      seek h.ptr (h.stops b.1) turns h.freep = some p.1 := by
  obtain ⟨f, hf', hfreep⟩ := hr.freep
  obtain ⟨us, vs, hsplit⟩ := append_of_mem hf'
  have hmem : ∀ c, c ∈ (base, 0) :: bs ↔ c ∈ f :: (vs ++ us) := by
    intro c
    rw [hsplit]
    simp only [mem_append, mem_cons]
    tauto
  have hlen : (f.1 :: (vs ++ us).map Prod.fst).length ≤ turns := by
    have hle := hr.seg.length_le
    have htop := hr.top_lt
    have := congrArg List.length hsplit
    simp only [length_cons, length_append, length_map, turns] at this ⊢
    omega
  have hexists : ∃ q ∈ f.1 :: (vs ++ us).map Prod.fst, h.stops b.1 q = true := by
    obtain ⟨xs, p, ys, hplace, hp⟩ := hr.exists_place hf
    refine ⟨p.1, ?_, (hr.stops_iff hf hplace).2 hp⟩
    exact mem_map_of_mem (f := Prod.fst) ((hmem p).1 (by simp [hplace]))
  obtain ⟨q, hq, hseek, hstop⟩ := seek_walk (hr.walk hsplit) rfl hlen hexists
  obtain ⟨p, hp, rfl⟩ := mem_map.1 (map_cons (f := Prod.fst) ▸ hq)
  obtain ⟨xs, ys, hplace⟩ := append_of_mem ((hmem p).2 hp)
  rw [hfreep] at hseek
  exact ⟨xs, p, ys, hplace, (hr.stops_iff hf hplace).1 hstop, hseek⟩

end

/-- A list of blocks that starts with `base`. -/
theorem cover_base (x : Nat) : cover (bytes ((base, 0) :: bs)) x = cover (bytes bs) x := by
  have hx : ¬ InInterval x (base, 8 * 0) := by
    simp only [InInterval]
    omega
  rw [bytes, map_cons, cover_cons, if_neg hx]
  rfl

theorem joinNext_eq {bp q : Nat} (hc : q + 8 ≤ bp) : h.joinNext bp q = h.attach bp (h.ptr q) := by
  have hptr : (h.setSize bp (h.size bp + h.size (h.ptr q))).ptr q = h.ptr q :=
    only_setSize.ptr fun _ => not_hdr (.inr hc)
  rw [Heap.joinNext, Heap.attach]
  dsimp only
  rw [hptr]

theorem Only.setFreep {S : Nat → Prop} {q : Nat} (ho : Only S h h') :
    Only S h { h' with freep := q } := ⟨ho.mem, ho.top, ho.areas, ho.sbrks⟩

theorem bytes_cons : bytes (b :: bs) = (b.1, 8 * b.2) :: bytes bs := rfl

theorem bytes_append : bytes (xs ++ ys) = bytes xs ++ bytes ys := map_append

/-- The start pointer is not part of the list. -/
theorem Seg.setFreep {q : Nat} (hs : Seg h bs z) : Seg { h with freep := q } bs z :=
  ⟨hs.walk, hs.sizes, hs.order, hs.below⟩

/-- The list with another part from some block on. -/
theorem Ring.replace {S : Nat → Prop} {p' : Block} {ys' : List Block} (hr : Ring base h bs)
    (hsplit : (base, 0) :: bs = xs ++ p :: ys) (hs : Seg h' (p' :: ys') base) (hp : p'.1 = p.1)
    (hnil : xs = [] → p' = p) (hle : p.2 ≤ p'.2) (hpos : ∀ c ∈ ys', 0 < c.2) (ho : Only S h h')
    (hS : ∀ x, x < p.1 → ¬ S x) :
    ∃ bs', (base, 0) :: bs' = xs ++ p' :: ys' ∧ Ring base { h' with freep := p.1 } bs' := by
  have hs0 := hr.seg
  rw [hsplit] at hs0
  have hxs : ∀ c ∈ xs, Before c p := fun c hc =>
    (pairwise_append.1 hs0.order).2.2 c hc p mem_cons_self
  have hseg : Seg h' (xs ++ p' :: ys') base := by
    have hstart : start (p' :: ys') base = start (p :: ys) base := hp
    refine seg_append ?_ hs fun c hc d hd => ?_
    · rw [hstart]
      refine hs0.left.congr ho fun c hc x _ hx => hS x ?_
      have := (hxs c hc).1
      omega
    · obtain ⟨hc8, hcp⟩ := hxs c hc
      have hpd : p.1 ≤ d.1 := by
        rcases mem_cons.1 hd with rfl | hd
        · exact hp.ge
        · have := ((pairwise_cons.1 hs.order).1 d hd).1
          omega
      exact ⟨by omega, by omega⟩
  obtain ⟨bs', hbs', hpos'⟩ : ∃ bs', (base, 0) :: bs' = xs ++ p' :: ys' ∧ ∀ c ∈ bs', 0 < c.2 := by
    cases xs with
    | nil =>
      cases hsplit
      exact ⟨ys', by rw [hnil rfl, nil_append], hpos⟩
    | cons c xs =>
      cases hsplit
      have hp2 := hr.units p (by simp)
      have hmem : ∀ d ∈ xs, 0 < d.2 := fun d hd => hr.units d (by simp [hd])
      refine ⟨xs ++ p' :: ys', rfl, ?_⟩
      exact forall_mem_append.2 ⟨hmem, forall_mem_cons.2 ⟨by omega, hpos⟩⟩
  refine ⟨bs', hbs', (hbs' ▸ hseg).setFreep, hpos', ho.top.trans_lt hr.top_lt, hr.pos, ?_⟩
  exact ⟨p', by rw [hbs']; simp, hp⟩

/-- The two `if`s of `free` put the block into the list, where the loop has found its place. -/
theorem Ring.insert (hr : Ring base h bs) (hf : Fits base h bs b)
    (hsplit : (base, 0) :: bs = xs ++ p :: ys) (hp : p.1 < b.1) (hys : ∀ c ∈ ys, b.1 < c.1) :
    ∃ p' b' l' l'', Joins b ys b' l' ∧ Joins p (b' :: l') p' l'' ∧
      Seg ((h.joinNext b.1 p.1).joinPrev b.1 p.1) (p' :: l'') base ∧
      Only (fun x => Hdr b.1 x ∨ Hdr p.1 x) h ((h.joinNext b.1 p.1).joinPrev b.1 p.1) := by
  have hmem : ∀ c, c ∈ xs ++ p :: ys → c ∈ (base, 0) :: bs := fun c hc => hsplit ▸ hc
  have hbase := hr.base_lt
  have hunits := hf.units
  have hbelow : Below h.top b := ⟨by have := hf.le_top; omega, hf.le_top⟩
  have hs := hr.seg
  rw [hsplit] at hs
  obtain ⟨hp8, hpb⟩ : p.1 + 8 ≤ b.1 ∧ p.1 + 8 * p.2 ≤ b.1 := by
    have := hr.before_or_behind hf (hmem p (by simp))
    omega
  have hbehind : ∀ c ∈ ys, b.1 + 8 ≤ c.1 ∧ b.1 + 8 * b.2 ≤ c.1 := by
    intro c hc
    have hlt := hys c hc
    have := hr.before_or_behind hf (hmem c (by simp [hc]))
    omega
  -- the block goes in front of the ones behind it
  rw [joinNext_eq hp8, hs.right.ptr_eq]
  obtain ⟨b', l', hj, hs1, ho1⟩ := hs.right.tail.attach hr.top_le hbase hf.size hbelow hbehind
    fun _ => by have := hf.base_le; omega
  generalize h.attach b.1 (start ys base) = h1 at hs1 ho1 ⊢
  -- and the one before it goes in front of the block
  have hsize : h1.size p.1 = p.2 :=
    (ho1.size fun _ => not_hdr (.inr hp8)).trans (hs.sizes p (by simp))
  have hbefore : ∀ c ∈ b' :: l', p.1 + 8 ≤ c.1 ∧ p.1 + 8 * p.2 ≤ c.1 := by
    intro c hc
    rcases mem_cons.1 hc with rfl | hc
    · rw [hj.fst]
      exact ⟨hp8, hpb⟩
    · have := hbehind c (hj.mem hc)
      omega
  obtain ⟨p', l'', hj', hs2, ho2⟩ := hs1.attach (ho1.top.trans_le hr.top_le) hbase hsize
    (ho1.top ▸ hs.below p (by simp)) hbefore nofun
  have hstart : start (b' :: l') base = b.1 := hj.fst
  rw [hstart] at hs2 ho2
  exact ⟨p', b', l', l'', hj, hj', hs2, (ho1.mono fun _ => .inl).trans (ho2.mono fun _ => .inr)⟩

/-- A block has come to the free ones. -/
def Ring.Inserted (base : Nat) (b : Block) (bs : List Block) (h h' : Heap) : Prop :=
  ∃ bs', Ring base h' bs' ∧ Only (Own base (b :: bs)) h h' ∧ (∃ c ∈ bs', b.2 ≤ c.2) ∧
    ∀ x, cover (bytes bs') x = cover (bytes (b :: bs)) x

/-- `free` puts a block into the list. -/
theorem sat_free (hr : Ring base h bs) (hf : Fits base h bs b) :
    Sat (fun _ => False) (free (plus b.1 1)) h fun _ h' => Ring.Inserted base b bs h h' := by
  have htop := hr.top_lt
  have hunits := hf.units
  have hle := hf.le_top
  have hheader : header (plus b.1 1) = b.1 := by
    rw [header, plus]
    omega
  obtain ⟨xs, p, ys, hsplit, hplace, hseek⟩ := hr.seek hf
  obtain ⟨p', b', l', l'', hj, hj', hs, ho⟩ := hr.insert hf hsplit hplace.1 hplace.2
  have hys := hr.units_right hsplit
  have hpos : ∀ c ∈ l'', 0 < c.2 := fun c hc => hj.units hunits hys c (hj'.mem hc)
  have hnil : xs = [] → p' = p := by
    rintro rfl
    cases hsplit
    cases hj' with
    | link => rfl
    | merge hc =>
      -- `base` has no memory of its own, so no block starts at its end
      rw [hj.fst] at hc
      omega
  obtain ⟨bs', hbs', hr'⟩ := hr.replace hsplit hs hj'.fst hnil hj'.le hpos ho fun x hx => by
    simp only [InInterval]
    omega
  rw [free, hheader, sat_get_bind, hseek]
  refine ⟨bs', hr', ho.setFreep.mono fun x hx => ?_, ?_, fun x => ?_⟩
  · rw [Own, bytes_cons, cover_cons]
    rcases hx with hx | hx
    · have hin : InInterval x (b.1, 8 * b.2) := by
        simp only [InInterval] at hx ⊢
        omega
      rw [if_pos hin]
      exact .inr (Nat.succ_pos _)
    · exact (hr.own_hdr (hsplit ▸ by simp) hx).imp_right fun hpos => Nat.add_pos_left hpos _
  · obtain ⟨c, hc, hle⟩ := hj'.exists_le
    have hbc := Nat.le_trans hj.le hle
    have hin : c ∈ (base, 0) :: bs' := hbs' ▸ mem_append_right xs hc
    rcases mem_cons.1 hin with rfl | hin
    · exact absurd hbc (Nat.not_le.2 hunits)
    · exact ⟨c, hin, hbc⟩
  · have hring := @cover_base base bs x
    have hring' := @cover_base base bs' x
    have hcov := hj.cover (x := x)
    have hcov' := hj'.cover (x := x)
    rw [hsplit] at hring
    rw [hbs'] at hring'
    simp only [bytes_cons, bytes_append, cover_append, cover_cons] at *
    omega

/-! ## `malloc` -/

/-- A block of so many headers has left the free ones. -/
def Ring.Taken (base n : Nat) (bs : List Block) (h : Heap) (q : Nat) (h' : Heap) : Prop :=
  h'.size q = n ∧ q + 8 ≤ h.top ∧ ∃ bs', Ring base h' bs' ∧ Only (Own base bs) h h' ∧
    ∀ x, cover (bytes ((q, n) :: bs')) x = cover (bytes bs) x

section
variable (hr : Ring base h bs)
include hr

/-- A block of the right size is unlinked. -/
theorem Ring.unlink (hsplit : (base, 0) :: bs = xs ++ p :: b :: ys) :
    Ring.Taken base b.2 bs h b.1 { h.setPtr p.1 (h.ptr b.1) with freep := p.1 } := by
  have hs := hr.seg
  rw [hsplit] at hs
  have hsp := hs.right
  have hpb : Before p b := (pairwise_cons.1 hsp.order).1 b mem_cons_self
  rw [hsp.tail.ptr_eq]
  have hlink := hsp.tail.tail.link hr.top_le hr.base_lt (hs.sizes p (by simp))
    (hs.below p (by simp)) fun c hc => (pairwise_cons.1 hsp.order).1 c (by simp [hc])
  have hpos := fun c hc => hr.units_right hsplit c (mem_cons_of_mem b hc)
  obtain ⟨bs', hbs', hr'⟩ := hr.replace hsplit hlink rfl (fun _ => rfl) (Nat.le_refl _) hpos
    only_setPtr fun x hx => by simp only [InInterval]; omega
  refine ⟨?_, (hs.below b (by simp)).1, bs', hr', only_setPtr.setFreep.mono fun x hx => ?_, fun x => ?_⟩
  · exact (only_setPtr.size fun _ => not_hdr (.inl hpb.1)).trans (hs.sizes b (by simp))
  · exact hr.own_hdr (hsplit ▸ by simp) hx
  · have hring := @cover_base base bs x
    have hring' := @cover_base base bs' x
    rw [hsplit] at hring
    rw [hbs'] at hring'
    simp only [bytes_cons, bytes_append, cover_append, cover_cons] at *
    omega

/-- A larger block gives its tail. -/
theorem Ring.split {n : Nat} (hsplit : (base, 0) :: bs = xs ++ p :: b :: ys)
    (hn : 0 < n) (hnb : n < b.2) : Ring.Taken base n bs h (b.1 + 8 * (b.2 - n))
      { (h.setSize b.1 (b.2 - n)).setSize (b.1 + 8 * (b.2 - n)) n with freep := p.1 } := by
  have hs := hr.seg
  rw [hsplit] at hs
  have htop := hr.top_lt
  have hsp := hs.right
  have hpb : Before p b := (pairwise_cons.1 hsp.order).1 b mem_cons_self
  obtain ⟨hb8, hbtop⟩ := hs.below b (by simp)
  generalize hq : b.1 + 8 * (b.2 - n) = q
  have ho : Only (fun x => Hdr b.1 x ∨ Hdr q x) h ((h.setSize b.1 (b.2 - n)).setSize q n) :=
    (only_setSize.mono fun _ => .inl).trans (only_setSize.mono fun _ => .inr)
  -- the blocks behind it and the one before it are as they were
  have hys : Seg ((h.setSize b.1 (b.2 - n)).setSize q n) ys base := by
    refine hsp.tail.tail.congr ho fun c hc x hx _ => ?_
    have hbc := (pairwise_cons.1 hsp.tail.order).1 c hc
    have := hbc.2
    simp only [InInterval]
    omega
  have hpclear : ∀ x, p.1 ≤ x → x < p.1 + 8 → ¬ (Hdr b.1 x ∨ Hdr q x) := by
    intro x _ hx
    have := hpb.1
    simp only [InInterval]
    omega
  have hb : Seg ((h.setSize b.1 (b.2 - n)).setSize q n) ((b.1, b.2 - n) :: ys) base := by
    refine hys.cons ?_ ?_ ⟨hb8, ?_⟩ fun c hc => ?_
    · rw [only_setSize.ptr fun _ => not_hdr (.inr (by omega)), ptr_setSize (by omega)]
      exact hsp.tail.ptr_eq
    · rw [only_setSize.size fun _ => not_hdr (.inr (by omega))]
      exact size_setSize (by omega) (by omega)
    · change b.1 + 8 * (b.2 - n) ≤ h.top
      omega
    · obtain ⟨hc8, hbc⟩ := (pairwise_cons.1 hsp.tail.order).1 c hc
      refine ⟨hc8, ?_⟩
      change b.1 + 8 * (b.2 - n) < c.1
      omega
  have hp : Seg ((h.setSize b.1 (b.2 - n)).setSize q n) (p :: (b.1, b.2 - n) :: ys) base := by
    refine hb.cons ((ho.ptr hpclear).trans hsp.ptr_eq)
      ((ho.size hpclear).trans (hs.sizes p (by simp))) (hs.below p (by simp)) ?_
    refine forall_mem_cons.2 ⟨hpb, fun c hc => ?_⟩
    exact (pairwise_cons.1 hsp.order).1 c (by simp [hc])
  have hpos : ∀ c ∈ (b.1, b.2 - n) :: ys, 0 < c.2 :=
    forall_mem_cons.2 ⟨by simp only; omega, fun c hc => hr.units_right hsplit c (by simp [hc])⟩
  obtain ⟨bs', hbs', hr'⟩ := hr.replace hsplit hp rfl (fun _ => rfl) (Nat.le_refl _) hpos ho
    fun x hx => by
      have := hpb.1
      simp only [InInterval]
      omega
  refine ⟨?_, by omega, bs', hr', ho.setFreep.mono fun x hx => ?_, fun x => ?_⟩
  · exact size_setSize (by omega) (by omega)
  · have hbin : b ∈ bs := by
      cases xs with
      | nil =>
        cases hsplit
        exact mem_cons_self
      | cons c xs =>
        cases hsplit
        simp
    refine .inr (cover_pos.2 ⟨(b.1, 8 * b.2), mem_map_of_mem hbin, ?_⟩)
    simp only [InInterval] at hx ⊢
    omega
  · have hring := @cover_base base bs x
    have hring' := @cover_base base bs' x
    have htail := @cover_split (bytes (xs ++ p :: ys)) x b.1 (8 * (b.2 - n)) (8 * n)
    have hsum : 8 * (b.2 - n) + 8 * n = 8 * b.2 := by omega
    rw [hsplit] at hring
    rw [hbs'] at hring'
    rw [hsum, hq] at htail
    simp only [bytes_cons, bytes_append, cover_append, cover_cons] at *
    omega

/-- The block that a block of the list points to comes next in memory, if it has memory. -/
theorem Ring.adjacent (hp : p ∈ (base, 0) :: bs) (hb : b ∈ (base, 0) :: bs)
    (hptr : h.ptr p.1 = b.1) (hpos : 0 < b.2) : ∃ xs ys, (base, 0) :: bs = xs ++ p :: b :: ys := by
  obtain ⟨xs, ys, hsplit⟩ := append_of_mem hp
  have hs := hr.seg
  rw [hsplit] at hs
  have hstart := hs.right.ptr_eq.symm.trans hptr
  have hsize := hr.seg.sizes b hb
  cases ys with
  | nil =>
    have hbase : h.size base = 0 := hr.seg.sizes (base, 0) mem_cons_self
    change base = b.1 at hstart
    rw [← hstart, hbase] at hsize
    omega
  | cons c ys =>
    change c.1 = b.1 at hstart
    have hc : c = b := Prod.ext hstart (by rw [← hs.sizes c (by simp), hstart, hsize])
    exact ⟨xs, ys, hc ▸ hsplit⟩

/-- `malloc` takes what it needs from a block that is large enough. -/
theorem Ring.carve {n : Nat} (hp : p ∈ (base, 0) :: bs)
    (hb : b ∈ (base, 0) :: bs) (hptr : h.ptr p.1 = b.1) (hn : 0 < n) (hfit : n ≤ h.size b.1) :
    Ring.Taken base n bs h (h.carve n p.1 b.1).1 { (h.carve n p.1 b.1).2 with freep := p.1 } := by
  have hsize := hr.seg.sizes b hb
  rw [hsize] at hfit
  obtain ⟨xs, ys, hsplit⟩ := hr.adjacent hp hb hptr (by omega)
  rw [Heap.carve]
  split
  · rename_i heq
    rw [hsize] at heq
    exact heq ▸ hr.unlink hsplit
  · rename_i hne
    rw [hsize] at hne
    have htop := hr.top_lt
    obtain ⟨hb8, hbtop⟩ := hr.seg.below b hb
    have hleft : (h.setSize b.1 (b.2 - n)).size b.1 = b.2 - n :=
      size_setSize (by omega) (by omega)
    have hplus : plus b.1 (b.2 - n) = b.1 + 8 * (b.2 - n) := Nat.mod_eq_of_lt (by omega)
    dsimp only
    rw [hsize, hleft, hplus]
    exact hr.split hsplit hn (by omega)

/-- The list as `malloc` looks through it: from the block behind the start to the start itself. -/
theorem Ring.round : ∃ init f, f.1 = h.freep ∧
    Walk h.ptr (f.1 :: (init ++ [f]).map Prod.fst) (h.ptr f.1) ∧
    (∀ c, c ∈ init ++ [f] ↔ c ∈ (base, 0) :: bs) ∧ (∀ c ∈ init, c.1 ≠ f.1) ∧
    init.length = bs.length := by
  obtain ⟨f, hf, hfreep⟩ := hr.freep
  obtain ⟨xs, ys, hsplit⟩ := append_of_mem hf
  have hord := hr.seg.order
  rw [hsplit] at hord
  obtain ⟨-, hright, hleft⟩ := pairwise_append.1 hord
  refine ⟨ys ++ xs, f, hfreep, ?_, fun c => ?_, fun c hc => ?_, ?_⟩
  · rw [map_append, map_singleton, ← cons_append]
    exact walk_append.2 ⟨hr.walk hsplit, rfl, trivial⟩
  · rw [hsplit]
    simp only [mem_append, mem_cons, not_mem_nil, or_false]
    tauto
  · rcases mem_append.1 hc with hc | hc
    · have := ((pairwise_cons.1 hright).1 c hc).1
      omega
    · have := (hleft c hc f mem_cons_self).1
      omega
  · have := congrArg List.length hsplit
    simp only [length_cons, length_append] at this ⊢
    omega

end

end

end TronBoss.Umalloc
