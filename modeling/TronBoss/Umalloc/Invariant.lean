import TronBoss.Umalloc.Ring

/-!
# The heap of a program

The free blocks and the blocks a program holds tile the memory obtained from `sbrk`. Both calls keep
this, they leave the blocks the program holds alone, and all their loops end.
-/

namespace TronBoss.Umalloc

open Lib List

/-- Some blocks and others tile the memory obtained from `sbrk`. -/
structure Tiles (base : Nat) (h : Heap) (live bs : List Block) : Prop where
  total : ∀ x, cover (bytes bs) x + cover (bytes live) x = cover h.areas x
  once : ∀ x, cover h.areas x ≤ 1
  range : ∀ a ∈ h.areas, base + 8 ≤ a.1 ∧ a.1 + a.2 ≤ h.top

/-- The free blocks are on the list, the live blocks have their headers, and both tile the memory
obtained from `sbrk`. -/
structure Inv (base : Nat) (h : Heap) (live bs : List Block) : Prop where
  ring : Ring base h bs
  tiles : Tiles base h live bs
  held : ∀ b ∈ live, h.size b.1 = b.2 ∧ 0 < b.2

/-- The bytes of some blocks are as they were. -/
def Kept (live : List Block) (h h' : Heap) : Prop :=
  ∀ b ∈ live, ∀ x, InInterval x (b.1, 8 * b.2) → h'.mem.get x = h.mem.get x

section
variable {base n m : Nat} {h h' h'' : Heap} {live bs : List Block} {b c : Block} {E : Stop → Prop}

theorem Kept.trans (hk : Kept live h h') (hk' : Kept live h' h'') : Kept live h h'' :=
  fun b hb x hx => (hk' b hb x hx).trans (hk b hb x hx)

/-- A byte of a live block is in the memory obtained, and it is not free. -/
theorem Tiles.not_own (ht : Tiles base h live bs) (hb : b ∈ live) {x : Nat}
    (hx : InInterval x (b.1, 8 * b.2)) : base + 8 ≤ x ∧ x < h.top ∧ ¬ Own base bs x := by
  have hlive : 0 < cover (bytes live) x := cover_pos.2 ⟨_, mem_map_of_mem hb, hx⟩
  have htotal := ht.total x
  have honce := ht.once x
  have harea : 0 < cover h.areas x := by omega
  obtain ⟨a, ha, hxa⟩ := cover_pos.1 harea
  obtain ⟨hlow, hhigh⟩ := ht.range a ha
  simp only [InInterval] at hxa
  refine ⟨by omega, by omega, ?_⟩
  rintro (hown | hown)
  · simp only [InInterval] at hown
    omega
  · omega

theorem Tiles.kept (ht : Tiles base h live bs) (ho : Only (Own base bs) h h') : Kept live h h' :=
  fun _ hb x hx => ho.mem x (ht.not_own hb hx).2.2

/-- Other free blocks with the same memory. -/
theorem Tiles.congr {S : Nat → Prop} {live' bs' : List Block} (ht : Tiles base h live bs)
    (ho : Only S h h') (hcov : ∀ x, cover (bytes bs') x + cover (bytes live') x =
      cover (bytes bs) x + cover (bytes live) x) : Tiles base h' live' bs' where
  total x := by
    rw [ho.areas, hcov]
    exact ht.total x
  once := by
    rw [ho.areas]
    exact ht.once
  range := by
    rw [ho.areas, ho.top]
    exact ht.range

theorem Kept.held (hk : Kept live h h') (hheld : ∀ b ∈ live, h.size b.1 = b.2 ∧ 0 < b.2) :
    ∀ b ∈ live, h'.size b.1 = b.2 ∧ 0 < b.2 := by
  intro b hb
  obtain ⟨hsize, hpos⟩ := hheld b hb
  refine ⟨(size_congr fun x hx hx' => hk b hb x ?_).trans hsize, hpos⟩
  simp only [InInterval]
  omega

/-- A block taken from the free ones becomes live. -/
theorem Inv.taken {q : Nat} (hi : Inv base h live bs) (hn : 0 < n)
    (ht : Ring.Taken base n bs h q h') :
    Kept live h h' ∧ ∃ bs', Inv base h' ((q, n) :: live) bs' := by
  obtain ⟨hsize, -, bs', hr, ho, hcov⟩ := ht
  have hk := hi.tiles.kept ho
  refine ⟨hk, bs', hr, hi.tiles.congr ho fun x => ?_, ?_⟩
  · have hx := hcov x
    simp only [bytes_cons, cover_cons] at hx ⊢
    omega
  · exact forall_mem_cons.2 ⟨⟨hsize, hn⟩, hk.held hi.held⟩

/-- A live block has its place between the free ones. -/
theorem Inv.fits (hi : Inv base h live bs) (hb : b ∈ live) : Fits base h bs b := by
  obtain ⟨hsize, hpos⟩ := hi.held b hb
  have hfirst := hi.tiles.not_own hb (x := b.1) ⟨Nat.le_refl _, by simp only; omega⟩
  have hlast := hi.tiles.not_own hb (x := b.1 + 8 * b.2 - 1) ⟨by simp only; omega, by simp only; omega⟩
  refine ⟨hsize, hpos, hfirst.1, by omega, fun c hc => ?_⟩
  have hcpos := hi.ring.units c hc
  have hapart : Apart (b.1, 8 * b.2) (c.1, 8 * c.2) := fun x hx hx' =>
    (hi.tiles.not_own hb hx).2.2 (.inr (cover_pos.2 ⟨_, mem_map_of_mem hc, hx'⟩))
  exact hapart.le_or_le (by simp only; omega) (by simp only; omega)

/-- `free` makes a live block free. -/
theorem Inv.free (hi : Inv base h live bs) (hb : b ∈ live) :
    Sat (fun _ => False) (free (plus b.1 1)) h fun _ h' => Kept (live.erase b) h h' ∧
      ∃ bs', Inv base h' (live.erase b) bs' ∧ ∃ c ∈ bs', b.2 ≤ c.2 := by
  refine (sat_free hi.ring (hi.fits hb)).weaken fun _ h' hins => ?_
  obtain ⟨bs', hr, ho, hfit, hcov⟩ := hins
  have hperm : ∀ x, cover (bytes live) x = cover (bytes (b :: live.erase b)) x := fun x =>
    cover_perm ((perm_cons_erase hb).map _)
  have hmid : Tiles base h (live.erase b) (b :: bs) := hi.tiles.congr (Only.refl h (S := Hdr 0))
    fun x => by
      have hx := hperm x
      simp only [bytes_cons, cover_cons] at hx ⊢
      omega
  have hk := hmid.kept ho
  refine ⟨hk, bs', ⟨hr, hmid.congr ho fun x => by rw [hcov], hk.held fun c hc => ?_⟩, hfit⟩
  exact hi.held c (mem_of_mem_erase hc)

/-! ## `malloc` -/

/-- An answer of `sbrk` is memory above the break. -/
theorem sat_sbrk {n : Int32} (hm : n.toUInt32.toNat = m) :
    Sat (· = .disabled) (sbrk n) h fun r h' => ∃ sbrks,
      (r = none ∧ h' = { h with sbrks := sbrks }) ∨ ∃ p, r = some p ∧ h.top ≤ p ∧ p + m < 2 ^ 32 ∧
        h' = { h with sbrks := sbrks, top := p + m, areas := (p, m) :: h.areas } := by
  rw [sbrk, hm, sat_get_bind]
  split
  · exact ⟨h.sbrks, .inl ⟨rfl, rfl⟩⟩
  · exact ⟨_, .inl ⟨rfl, rfl⟩⟩
  · rw [sat_require_bind]
    exact ⟨fun _ => rfl, fun hfresh => ⟨_, .inr ⟨_, rfl, hfresh.1, hfresh.2, rfl⟩⟩⟩

theorem Inv.setSbrks (hi : Inv base h live bs) (sbrks : List (Option Nat)) :
    Inv base { h with sbrks := sbrks } live bs where
  ring := ⟨⟨hi.ring.seg.walk, hi.ring.seg.sizes, hi.ring.seg.order, hi.ring.seg.below⟩,
    hi.ring.units, hi.ring.top_lt, hi.ring.pos, hi.ring.freep⟩
  tiles := ⟨hi.tiles.total, hi.tiles.once, hi.tiles.range⟩
  held := hi.held

/-- The memory `morecore` gets from `sbrk` is a live block until it is given to `free`. -/
theorem Inv.grow {p nu : Nat} (hi : Inv base h live bs) (hp : h.top ≤ p)
    (hp' : p + 8 * nu < 2 ^ 32) (hnu : 0 < nu) (sbrks : List (Option Nat)) :
    Kept live h (Heap.setSize ⟨h.mem, h.freep, p + 8 * nu, (p, 8 * nu) :: h.areas, sbrks⟩ p nu) ∧
      Inv base (Heap.setSize ⟨h.mem, h.freep, p + 8 * nu, (p, 8 * nu) :: h.areas, sbrks⟩ p nu)
        ((p, nu) :: live) bs := by
  generalize hh1 : (⟨h.mem, h.freep, p + 8 * nu, (p, 8 * nu) :: h.areas, sbrks⟩ : Heap) = h1
  have hbase := (hi.ring.seg.below (base, 0) mem_cons_self).1
  have ho : Only (Hdr p) h1 (h1.setSize p nu) := only_setSize
  have hmem : ∀ x, x < h.top → (h1.setSize p nu).mem.get x = h.mem.get x := by
    intro x hx
    rw [ho.mem x (by simp only [InInterval]; omega), ← hh1]
  have hk : Kept live h (h1.setSize p nu) := fun b hb x hx => hmem x (hi.tiles.not_own hb hx).2.1
  have hs : Seg h1 ((base, 0) :: bs) base := by
    refine hh1 ▸ ⟨hi.ring.seg.walk, hi.ring.seg.sizes, hi.ring.seg.order, fun b hb => ?_⟩
    obtain ⟨hb8, hbtop⟩ := hi.ring.seg.below b hb
    exact ⟨by simp only; omega, by simp only; omega⟩
  refine ⟨hk, ⟨hs.congr ho fun b hb x _ hx => ?_, hi.ring.units, ?_, hi.ring.pos, ?_⟩, ?_, ?_⟩
  · have := (hi.ring.seg.below b hb).1
    simp only [InInterval]
    omega
  · exact hh1 ▸ hp'
  · exact hh1 ▸ hi.ring.freep
  · refine hh1 ▸ ⟨fun x => ?_, fun x => ?_, forall_mem_cons.2 ⟨⟨?_, Nat.le_refl _⟩, ?_⟩⟩
    · have htotal := hi.tiles.total x
      change cover (bytes bs) x + cover (bytes ((p, nu) :: live)) x =
        cover ((p, 8 * nu) :: h.areas) x
      rw [bytes_cons, cover_cons, cover_cons]
      dsimp only
      omega
    · have honce := hi.tiles.once x
      change cover ((p, 8 * nu) :: h.areas) x ≤ 1
      rw [cover_cons]
      split
      · rename_i hx
        have hnone : cover h.areas x = 0 := cover_eq_zero.2 fun a ha hxa => by
          have := (hi.tiles.range a ha).2
          simp only [InInterval] at hx hxa
          omega
        omega
      · exact honce
    · omega
    · intro a ha
      obtain ⟨hlow, hhigh⟩ := hi.tiles.range a ha
      refine ⟨hlow, ?_⟩
      change a.1 + a.2 ≤ p + 8 * nu
      omega
  · refine forall_mem_cons.2 ⟨⟨size_setSize (by omega) (by omega), hnu⟩, hk.held hi.held⟩

/-- `morecore` fails, or it makes a block that is large enough. -/
theorem Inv.morecore (hi : Inv base h live bs) (hn : n * 8 < 2 ^ 32) :
    Sat (· = .disabled) (morecore n) h fun p h' => Kept live h h' ∧
      ((p = 0 ∧ Inv base h' live bs) ∨
        p = h'.freep ∧ ∃ bs', Inv base h' live bs' ∧ ∃ c ∈ bs', n ≤ c.2) := by
  rw [Umalloc.morecore, sbrkArg]
  generalize hnu : coreUnits n = nu
  have hnu' : n ≤ nu ∧ 0 < nu ∧ nu * 8 < 2 ^ 32 := by
    rw [coreUnits] at hnu
    split at hnu <;> omega
  have harg : (Int32.ofNat (nu * 8)).toUInt32.toNat = 8 * nu := by
    rw [Int32.toUInt32_ofNat', UInt32.toNat_ofNat', Nat.mod_eq_of_lt hnu'.2.2, Nat.mul_comm]
  refine (sat_sbrk harg).bind fun r h1 hr => ?_
  obtain ⟨sbrks, ⟨rfl, rfl⟩ | ⟨p, rfl, hp, hp', rfl⟩⟩ := hr
  · exact ⟨fun _ _ _ _ => rfl, .inl ⟨rfl, hi.setSbrks sbrks⟩⟩
  · obtain ⟨hk, hi1⟩ := hi.grow hp hp' hnu'.2.1 sbrks
    -- the header is in the memory that was asked for
    have hin : ¬ Heap.mapped ⟨h.mem, h.freep, p + 8 * nu, (p, 8 * nu) :: h.areas, sbrks⟩ < p + 8 := by
      simp only [Heap.mapped]
      omega
    rw [sat_get_bind, if_neg hin, sat_modify_bind]
    refine ((hi1.free mem_cons_self).mono nofun fun _ h2 h₂' => h₂').bind fun _ h2 h₂' => ?_
    rw [erase_cons_head] at h₂'
    obtain ⟨hk', bs', hi2, c, hc, hle⟩ := h₂'
    exact ⟨hk.trans hk', .inr ⟨rfl, bs', hi2, c, hc, Nat.le_trans hnu'.1 hle⟩⟩

/-- One turn of the loop of `malloc`. -/
theorem sat_mallocLoop {Q : Nat → Heap → Prop} {prevp p : Nat}
    (hfound : n ≤ h.size p → Q (plus (h.carve n prevp p).1 1)
      { (h.carve n prevp p).2 with freep := prevp })
    (hnext : h.size p < n → Sat E (if p = h.freep then do
        let p ← Umalloc.morecore n
        if p = 0 then return 0
        else mallocLoop n m p ((← get).ptr p)
      else mallocLoop n m p (h.ptr p)) h Q) :
    Sat E (mallocLoop n (m + 1) prevp p) h Q := by
  rw [mallocLoop, sat_get_bind]
  refine Sat.ite (fun hfit => ?_) fun hsmall => hnext (Nat.lt_of_not_le hsmall)
  replace hfound := hfound hfit
  generalize h.carve n prevp p = r at hfound ⊢
  exact hfound

/-- The loop of `malloc`, from a block of the list on: it takes from the first block that is large
enough, or it comes to the start of the list. -/
theorem Ring.scan {Q : Nat → Heap → Prop} {init : List Block} {prev f : Block} {z : Nat}
    (hr : Ring base h bs) (hn : 0 < n) (hprev : prev ∈ (base, 0) :: bs)
    (hmem : ∀ c ∈ init ++ [f], c ∈ (base, 0) :: bs)
    (hwalk : Walk h.ptr (prev.1 :: (init ++ [f]).map Prod.fst) z) (hf : f.1 = h.freep)
    (hinit : ∀ c ∈ init, c.1 ≠ f.1)
    (htake : ∀ q h', Ring.Taken base n bs h q h' → Q (plus q 1) h')
    (hmore : (∀ c ∈ init ++ [f], c.2 < n) → Sat E (do
      let p ← Umalloc.morecore n
      if p = 0 then return 0
      else mallocLoop n m p ((← get).ptr p)) h Q) :
    Sat E (mallocLoop n (init.length + (m + 1)) prev.1 (h.ptr prev.1)) h Q := by
  have hfound : ∀ {p c : Block}, p ∈ (base, 0) :: bs → c ∈ (base, 0) :: bs → h.ptr p.1 = c.1 →
      n ≤ h.size c.1 → Q (plus (h.carve n p.1 c.1).1 1)
        { (h.carve n p.1 c.1).2 with freep := p.1 } :=
    fun hp hc hptr hfit => htake _ _ (hr.carve hp hc hptr hn hfit)
  induction init generalizing prev with
  | nil =>
    have hmemf := hmem f (by simp)
    have hptr : h.ptr prev.1 = f.1 := hwalk.1
    rw [length_nil, Nat.zero_add, hptr]
    refine sat_mallocLoop (hfound hprev hmemf hptr) fun hsmall => ?_
    rw [if_pos hf]
    refine hmore fun c hc => ?_
    rwa [mem_singleton.1 hc, ← hr.seg.sizes f hmemf]
  | cons c init ih =>
    have hmemc := hmem c (by simp)
    have hptr : h.ptr prev.1 = c.1 := hwalk.1
    have hfuel : (c :: init).length + (m + 1) = init.length + (m + 1) + 1 := by
      rw [length_cons]
      omega
    rw [hfuel, hptr]
    refine sat_mallocLoop (hfound hprev hmemc hptr) fun hsmall => ?_
    rw [if_neg (hf ▸ hinit c mem_cons_self)]
    refine ih hmemc (fun d hd => hmem d (mem_cons_of_mem c hd)) hwalk.2
      (fun d hd => hinit d (mem_cons_of_mem c hd)) fun hall => hmore ?_
    refine forall_mem_cons.2 ⟨?_, hall⟩
    rwa [← hr.seg.sizes c hmemc]

/-- What `malloc` does: it fails, or it returns a block that is live from then on. -/
def Allocated (base n : Nat) (live : List Block) (h : Heap) (ap : Nat) (h' : Heap) : Prop :=
  Kept live h h' ∧ ((ap = 0 ∧ ∃ bs', Inv base h' live bs') ∨
    ap ≠ 0 ∧ ∃ bs', Inv base h' ((header ap, n) :: live) bs')

/-- A block taken from the free list is a new live block. -/
theorem Inv.allocated {q : Nat} (hi : Inv base h live bs) (hn : 0 < n)
    (ht : Ring.Taken base n bs h q h') : Allocated base n live h (plus q 1) h' := by
  obtain ⟨hk, bs', hi'⟩ := hi.taken hn ht
  have htop := hi.ring.top_lt
  have hq := ht.2.1
  have hplus : plus q 1 = q + 8 := Nat.mod_eq_of_lt (by omega)
  have hheader : header (q + 8) = q := by
    rw [header]
    omega
  rw [hplus]
  refine ⟨hk, .inr ⟨by omega, bs', ?_⟩⟩
  rwa [hheader]

/-- Where one of the free blocks is large enough, the loop of `malloc` finds it. -/
theorem Inv.mallocLoop_of_fit (hi : Inv base h live bs) (hn : 0 < n)
    (hfit : ∃ c ∈ bs, n ≤ c.2) (hm : bs.length < m) :
    Sat E (mallocLoop n m h.freep (h.ptr h.freep)) h (Allocated base n live h) := by
  obtain ⟨init, f, hf, hwalk, hmem, hinit, hlen⟩ := hi.ring.round
  obtain ⟨k, rfl⟩ := Nat.exists_eq_add_of_lt hm
  rw [← hf, ← hlen, Nat.add_assoc]
  refine hi.ring.scan hn ((hmem f).1 (by simp)) (fun c => (hmem c).1) hwalk hf hinit
    (fun q h' => hi.allocated hn) fun hall => ?_
  obtain ⟨c, hc, hle⟩ := hfit
  have := hall c ((hmem c).2 (mem_cons_of_mem _ hc))
  omega

theorem Ring.length_lt (hr : Ring base h bs) : bs.length < 2 ^ 30 := by
  have hle := hr.seg.length_le
  have htop := hr.top_lt
  omega

/-- The loop of `malloc`. -/
theorem Inv.mallocLoop (hi : Inv base h live bs) (hn : 0 < n) (hn' : n * 8 < 2 ^ 32)
    (hm : 2 ^ 31 ≤ m) :
    Sat (· = .disabled) (mallocLoop n m h.freep (h.ptr h.freep)) h (Allocated base n live h) := by
  obtain ⟨init, f, hf, hwalk, hmem, hinit, hlen⟩ := hi.ring.round
  have hbs := hi.ring.length_lt
  obtain ⟨k, hk, rfl⟩ : ∃ k, 2 ^ 30 ≤ k ∧ m = init.length + (k + 1) :=
    ⟨m - init.length - 1, by omega, by omega⟩
  rw [← hf]
  refine hi.ring.scan hn ((hmem f).1 (by simp)) (fun c => (hmem c).1) hwalk hf hinit
    (fun q h' => hi.allocated hn) fun _ => ?_
  refine (hi.morecore hn').bind fun p h1 h₁' => ?_
  obtain ⟨hk1, ⟨rfl, hi1⟩ | ⟨rfl, bs1, hi1, hfit⟩⟩ := h₁'
  · exact ⟨hk1, .inl ⟨rfl, bs, hi1⟩⟩
  · refine Sat.ite (fun hzero => ?_) fun _ => ?_
    · exact ⟨hk1, .inl ⟨rfl, bs1, hi1⟩⟩
    · have hlt := hi1.ring.length_lt
      rw [sat_get_bind]
      refine (hi1.mallocLoop_of_fit hn hfit (by omega)).weaken fun ap h2 h₂' => ?_
      exact ⟨hk1.trans h₂'.1, h₂'.2⟩

/-- The heap before the first call of `malloc`. -/
structure Fresh (base : Nat) (h : Heap) : Prop where
  freep : h.freep = 0
  areas : h.areas = []
  pos : 0 < base
  base_le : base + 8 ≤ h.top
  top_lt : h.top < 2 ^ 32

/-- The first call of `malloc` makes the list of `base` alone. -/
theorem Fresh.init (hf : Fresh base h) : Inv base (h.init base) [] [] := by
  have hle := hf.base_le
  have htop := hf.top_lt
  have hptr : (h.init base).ptr base = base := by
    change ((h.setPtr base base).setSize base 0).ptr base = base
    rw [ptr_setSize (by omega), ptr_setPtr (by omega) (by omega)]
  have hsize : (h.init base).size base = 0 := by
    change ((h.setPtr base base).setSize base 0).size base = 0
    exact size_setSize (by omega) (by omega)
  have hareas : (h.init base).areas = [] := hf.areas
  have hseg : Seg (h.init base) [(base, 0)] base := by
    refine ⟨⟨hptr, trivial⟩, ?_, pairwise_singleton _ _, ?_⟩
    · exact forall_mem_singleton.2 hsize
    · exact forall_mem_singleton.2 ⟨hle, by simp only; exact Nat.le_of_add_right_le hle⟩
  refine ⟨⟨hseg, nofun, htop, hf.pos, (base, 0), mem_singleton_self _, rfl⟩, ⟨?_, ?_, ?_⟩, nofun⟩
  · rw [hareas]
    exact fun _ => rfl
  · rw [hareas]
    exact fun _ => Nat.zero_le _
  · rw [hareas]
    nofun

theorem Ring.freep_pos (hr : Ring base h bs) : h.freep ≠ 0 := by
  obtain ⟨f, hf, hfreep⟩ := hr.freep
  have hpos := hr.pos
  rcases mem_cons.1 hf with rfl | hf
  · omega
  · have := ((pairwise_cons.1 hr.seg.order).1 f hf).1
    omega

/-- What holds between the calls. -/
def Good (base : Nat) (h : Heap) (live : List Block) : Prop :=
  (Fresh base h ∧ live = []) ∨ ∃ bs, Inv base h live bs

/-- `malloc` keeps the heap in order, and it returns. -/
theorem Good.malloc {nbytes : UInt32} (hg : Good base h live) (hn : nunits nbytes * 8 < 2 ^ 32) :
    Sat (· = .disabled) (malloc base nbytes) h (Allocated base (nunits nbytes) live h) := by
  have hpos : 0 < nunits nbytes := Nat.succ_pos _
  have hturns : 2 ^ 31 ≤ turns := by
    rw [turns]
    omega
  rw [Umalloc.malloc, sat_get_bind]
  rcases hg with ⟨hf, rfl⟩ | ⟨bs, hi⟩
  · rw [if_pos hf.freep, sat_modify_bind, sat_get_bind]
    refine (hf.init.mallocLoop hpos hn hturns).weaken fun ap h' ha => ?_
    exact ⟨fun _ hb => absurd hb not_mem_nil, ha.2⟩
  · rw [if_neg hi.ring.freep_pos]
    exact hi.mallocLoop hpos hn hturns

end

/-! ## Programs -/

/-- The free blocks but for `base`, in the order of their addresses: walked from `freep` on, the list
comes back to `freep` with one step down, and no block ends where the next one starts. -/
structure FreeList (base : Nat) (h : Heap) (free : List Nat) : Prop where
  circular : ∃ low high, base :: free = low ++ h.freep :: high ∧
    Walk h.ptr (h.freep :: (high ++ low)) h.freep
  ordered : (base :: free).Pairwise (· < ·)
  unmergeable : ∀ p ∈ base :: free, h.ptr p ≠ p → plus p (h.size p) ≠ h.ptr p

/-- The memory of the free blocks and of the live ones. -/
def State.blocks (s : State) (free : List Nat) : List (Nat × Nat) :=
  free.map (fun p => (p, 8 * s.heap.size p)) ++ bytes s.live

/-- The heap is in order: the free list is, and the free and the live blocks lie apart from each
other and cover what `sbrk` has given. -/
def State.Ok (base : Nat) (s : State) : Prop :=
  ∃ free, FreeList base s.heap free ∧ (s.blocks free).Pairwise Apart ∧
    ∀ x, (∃ b ∈ s.blocks free, InInterval x b) ↔ ∃ a ∈ s.heap.areas, InInterval x a

/-- The bytes asked for, with the headers, fit into an address. -/
def Call.Small : Call → Prop
  | .malloc nbytes _ => nunits nbytes * 8 < 2 ^ 32
  | .free _ => True
  | .store _ _ => True

instance : (c : Call) → Decidable c.Small
  | .malloc _ _ => inferInstanceAs (Decidable (_ < _))
  | .free _ => .isTrue trivial
  | .store _ _ => .isTrue trivial

/-- A call of the allocator, not a store of the program. -/
def Call.Allocates : Call → Prop
  | .malloc _ _ => True
  | .free _ => True
  | .store _ _ => False

section
variable {base : Nat} {h : Heap} {bs : List Block} {s s' : State} {c : Call}

/-- The ring is the free list of the source, in the order of addresses. -/
theorem Ring.freeList (hr : Ring base h bs) : FreeList base h (bs.map Prod.fst) where
  circular := by
    obtain ⟨f, hf, hfreep⟩ := hr.freep
    obtain ⟨xs, ys, hsplit⟩ := append_of_mem hf
    refine ⟨xs.map Prod.fst, ys.map Prod.fst, ?_, ?_⟩
    · have := congrArg (List.map Prod.fst) hsplit
      rwa [map_cons, map_append, map_cons, hfreep] at this
    · have hwalk := hr.walk hsplit
      rwa [hfreep, map_append] at hwalk
  ordered := by
    have hord := hr.seg.order.map Prod.fst (S := (· < ·)) fun b c hbc => by
      have := hbc.1
      omega
    exact hord
  unmergeable p hp hne := by
    obtain ⟨b, hb, rfl⟩ : ∃ b ∈ (base, 0) :: bs, b.1 = p := mem_map.1 hp
    obtain ⟨xs, ys, hsplit⟩ := append_of_mem hb
    have hs := hr.seg
    have htop := hr.top_lt
    have hbelow := hs.below b hb
    have hplus : plus b.1 b.2 = b.1 + 8 * b.2 := Nat.mod_eq_of_lt (by have := hbelow.2; omega)
    rw [hs.sizes b hb, hplus]
    rw [hsplit] at hs
    rw [hs.right.ptr_eq] at hne ⊢
    cases ys with
    | nil =>
      change base ≠ b.1 at hne
      change b.1 + 8 * b.2 ≠ base
      rcases mem_cons.1 hb with rfl | hb
      · exact (hne rfl).elim
      · have := ((pairwise_cons.1 hr.seg.order).1 b hb).1
        omega
    | cons c ys =>
      have hbc := ((pairwise_cons.1 hs.right.order).1 c mem_cons_self).2
      exact Nat.ne_of_lt hbc

/-- The invariant in terms of the free list, the blocks and their bytes. -/
theorem Inv.ok (hi : Inv base s.heap s.live bs) : s.Ok base := by
  have hblocks : s.blocks (bs.map Prod.fst) = bytes bs ++ bytes s.live := by
    rw [State.blocks, map_map, bytes]
    refine congrArg (· ++ _) (map_congr_left fun b hb => ?_)
    rw [Function.comp_apply, hi.ring.seg.sizes b (mem_cons_of_mem _ hb)]
  refine ⟨bs.map Prod.fst, hi.ring.freeList, ?_, fun x => ?_⟩
  · rw [hblocks]
    refine pairwise_apart fun x => ?_
    rw [cover_append, hi.tiles.total]
    exact hi.tiles.once x
  · rw [hblocks, ← cover_pos, ← cover_pos, cover_append, hi.tiles.total]

/-- A block that stays live through a call of the allocator is not altered by it. -/
def Unaltered (c : Call) (s s' : State) : Prop :=
  c.Allocates → ∀ b ∈ s.live, b ∈ s'.live → ∀ x, InInterval x (b.1, 8 * b.2) →
    s'.heap.mem.get x = s.heap.mem.get x

/-- A live block has no byte in common with another one. -/
theorem Inv.apart_live {live : List Block} {b d : Block} {x : Nat} (hi : Inv base h live bs)
    (hb : b ∈ live) (hd : d ∈ live) (hx : InInterval x (b.1, 8 * b.2))
    (hx' : InInterval x (d.1, 8 * d.2)) : d = b := by
  rcases eq_or_ne d b with rfl | hne
  · rfl
  · have hrest : 0 < cover (bytes (live.erase b)) x :=
      cover_pos.2 ⟨_, mem_map_of_mem ((mem_erase_of_ne hne).2 hd), hx'⟩
    have hperm : cover (bytes live) x = cover (bytes (b :: live.erase b)) x :=
      cover_perm ((perm_cons_erase hb).map _)
    have htotal := hi.tiles.total x
    have honce := hi.tiles.once x
    rw [bytes_cons, cover_cons, if_pos hx] at hperm
    omega

/-- A store into a live block changes no header. -/
theorem Inv.store {live : List Block} {a : Nat} {v : UInt8} {b : Block} (hi : Inv base h live bs)
    (hb : b ∈ live) (ha : b.1 + 8 ≤ a ∧ a < b.1 + 8 * b.2) :
    Inv base { h with mem := h.mem.write a [v] } live bs := by
  have hab : InInterval a (b.1, 8 * b.2) := ⟨by simp only; omega, ha.2⟩
  have ho : Only (· = a) h { h with mem := h.mem.write a [v] } := by
    refine ⟨fun x hx => ?_, rfl, rfl, rfl⟩
    rcases Nat.lt_or_ge x (2 ^ 32) with hlt | hge
    · rw [Bytes.get_write hlt, if_neg]
      rw [length_singleton]
      omega
    · rw [Bytes.get, dif_neg (by omega), Bytes.get, dif_neg (by omega)]
  have hown : ¬ Own base bs a := (hi.tiles.not_own hb hab).2.2
  have hhdr : ∀ c ∈ (base, 0) :: bs, ∀ x, c.1 ≤ x → x < c.1 + 8 → x ≠ a := by
    rintro c hc x hx hx' rfl
    exact hown (hi.ring.own_hdr hc ⟨hx, hx'⟩)
  refine ⟨⟨hi.ring.seg.congr ho hhdr, hi.ring.units, hi.ring.top_lt, hi.ring.pos, hi.ring.freep⟩,
    hi.tiles.congr ho fun _ => rfl, fun d hd => ?_⟩
  obtain ⟨hsize, hpos⟩ := hi.held d hd
  refine ⟨(ho.size ?_).trans hsize, hpos⟩
  rintro x hx hx' rfl
  have hdb := hi.apart_live hb hd hab ⟨hx, by simp only; omega⟩
  rw [hdb] at hx'
  omega

theorem Good.setSbrks (hg : Good base s.heap s.live) (sbrks : List (Option Nat)) :
    Good base { s.heap with sbrks := sbrks } s.live := by
  rcases hg with ⟨hf, hlive⟩ | ⟨bs, hi⟩
  · exact .inl ⟨⟨hf.freep, hf.areas, hf.pos, hf.base_le, hf.top_lt⟩, hlive⟩
  · exact .inr ⟨bs, hi.setSbrks sbrks⟩

/-- A program that has a block has called `malloc`. -/
theorem Good.inv {b : Block} (hg : Good base s.heap s.live) (hb : b ∈ s.live) :
    ∃ bs, Inv base s.heap s.live bs := by
  rcases hg with ⟨-, hlive⟩ | hi
  · rw [hlive] at hb
    cases hb
  · exact hi

theorem sat_onHeap {α β : Type} {E : Stop → Prop} {m : HeapM α} {f : α → Routine State β}
    {P : α → Heap → Prop} {Q : β → State → Prop} (hm : Sat E m s.heap P)
    (hf : ∀ a h', P a h' → Sat E (f a) ⟨h', s.live⟩ Q) : Sat E (onHeap m >>= f) s Q := by
  rw [sat_bind, onHeap, sat_zoom]
  exact hm.weaken hf

/-- A step of a program. -/
theorem Good.step (hg : Good base s.heap s.live) (hc : c.Small) :
    Sat (· = .disabled) (c.run base) s fun _ s' =>
      (∃ bs, Inv base s'.heap s'.live bs) ∧ Unaltered c s s' := by
  cases c with
  | malloc nbytes sbrks =>
    rw [Call.run, sat_require_bind]
    refine ⟨fun _ => rfl, fun _ => ?_⟩
    rw [sat_modify_bind]
    refine sat_onHeap ((hg.setSbrks sbrks).malloc hc) fun ap h' ha => ?_
    obtain ⟨hk, ⟨rfl, bs', hi⟩ | ⟨hap, bs', hi⟩⟩ := ha
    · exact ⟨⟨bs', hi⟩, fun _ b hb _ => hk b hb⟩
    · rw [if_pos hap]
      exact ⟨⟨bs', hi⟩, fun _ b hb _ => hk b hb⟩
  | free ap =>
    rw [Call.run, sat_get_bind]
    split
    · exact rfl
    · rename_i b hfind
      have hb := mem_of_find?_eq_some hfind
      have hap := find?_some hfind
      obtain ⟨bs, hi⟩ := hg.inv hb
      rw [← of_decide_eq_true hap]
      refine sat_onHeap ((hi.free hb).mono nofun fun _ _ hf => hf) fun _ h' hf => ?_
      obtain ⟨hk, bs', hi', -⟩ := hf
      exact ⟨⟨bs', hi'⟩, fun _ d _ hd => hk d hd⟩
  | store a v =>
    rw [Call.run, sat_get_bind, sat_require_bind]
    refine ⟨fun _ => rfl, fun hin => ?_⟩
    obtain ⟨b, hb, ha⟩ := hin
    obtain ⟨bs, hi⟩ := hg.inv hb
    exact ⟨⟨bs, hi.store hb ha⟩, False.elim⟩

/-- After any calls and stores, the next one leaves the heap in order and the live blocks as they
are, and it returns. -/
theorem umalloc_in_order (base top : Nat) (mem : Bytes (2 ^ 32)) (calls : List Call) (c : Call)
    (hbase : 0 < base) (hle : base + 8 ≤ top) (htop : top < 2 ^ 32)
    (hsmall : ∀ d ∈ c :: calls, d.Small) :
    Sat (· = .disabled) (calls.forM (Call.run base)) (State.start mem top) fun _ s =>
      Sat (· = .disabled) (c.run base) s fun _ s' => s'.Ok base ∧ Unaltered c s s' := by
  have hstart : Good base (State.start mem top).heap (State.start mem top).live :=
    .inl ⟨⟨rfl, rfl, hbase, hle, htop⟩, rfl⟩
  have hrun : Sat (· = .disabled) (calls.forM (Call.run base)) (State.start mem top) fun _ s =>
      Good base s.heap s.live := by
    refine Sat.forM (I := fun _ s => Good base (State.heap s) (State.live s)) ?_ hstart
    intro pre d post s hcalls hg
    have hd : d.Small := hsmall d (by simp [hcalls])
    exact (hg.step hd).weaken fun _ s' hs' => .inr hs'.1
  refine hrun.weaken fun _ s hg => ?_
  refine (hg.step (hsmall c mem_cons_self)).weaken fun _ s' hs' => ?_
  obtain ⟨⟨bs, hi⟩, hun⟩ := hs'
  exact ⟨hi.ok, hun⟩

/-- Two calls of `malloc`, the first of which gets memory, and a `free` that leaves a hole. -/
theorem umalloc_in_order_hole : ∃ s s' : State,
    [Call.malloc 100 [some 8192], Call.malloc 40 []].forM (Call.run 4096)
      (State.start Bytes.zero 8192) = .ok ((), s) ∧
    (Call.free 40856).run 4096 s = .ok ((), s') ∧ s.live.length = 2 ∧ s'.live.length = 1 ∧
    s'.Ok 4096 := by
  have hrun : ∃ r, (([Call.malloc 100 [some 8192], Call.malloc 40 []].forM (Call.run 4096)
      (State.start Bytes.zero 8192)).bind fun r => ((Call.free 40856).run 4096 r.2).bind fun r' =>
        .ok (r.2, r'.2)) = .ok r ∧ decide (r.1.live.length = 2 ∧ r.2.live.length = 1) = true :=
    exists_ok (by decide +kernel)
  obtain ⟨r, hr, hlive⟩ := hrun
  obtain ⟨⟨_, s⟩, hs, hr⟩ := bind_eq_ok.1 hr
  obtain ⟨⟨_, s'⟩, hs', hr⟩ := bind_eq_ok.1 hr
  cases hr
  have hok := umalloc_in_order 4096 8192 Bytes.zero [.malloc 100 [some 8192], .malloc 40 []]
    (.free 40856) (by decide) (by decide) (by decide) (by decide)
  have hlive := of_decide_eq_true hlive
  exact ⟨s, s', hs, hs', hlive.1, hlive.2, ((hok.of_ok hs).of_ok hs').1⟩

/-- A number of bytes whose number of headers does not wrap, but the bytes of so many headers do:
`sbrk` is asked for no memory at all, the header is stored in the rest of the last page, and `malloc`
returns a block of 2^29 headers. -/
theorem umalloc_wraps : ∃ s : State,
    [Call.malloc 32768 [some 8192], .malloc 0xFFFFFFF8 [some 40968]].forM (Call.run 4096)
      (State.start Bytes.zero 8192) = .ok ((), s) ∧ ¬ s.Ok 4096 := by
  have hrun : ∃ r, [Call.malloc 32768 [some 8192], .malloc 0xFFFFFFF8 [some 40968]].forM
      (Call.run 4096) (State.start Bytes.zero 8192) = .ok r ∧
        decide (r.2.live = [(40968, 2 ^ 29), (8192, 4097)] ∧
          r.2.heap.areas = [(40968, 0), (8192, 32776)]) = true :=
    exists_ok (by decide +kernel)
  obtain ⟨⟨_, s⟩, hs, hcheck⟩ := hrun
  obtain ⟨hlive, hareas⟩ := of_decide_eq_true hcheck
  refine ⟨s, hs, ?_⟩
  rintro ⟨free, -, -, hcover⟩
  have hin : ((40968, 8 * 2 ^ 29) : Nat × Nat) ∈ s.blocks free := by
    rw [State.blocks, hlive]
    exact mem_append_right _ (by simp [bytes])
  obtain ⟨a, ha, hx⟩ := (hcover 40968).1 ⟨_, hin, by decide⟩
  rw [hareas] at ha
  have hno : ∀ a ∈ [(40968, 0), (8192, 32776)], ¬ InInterval 40968 a := by decide
  exact hno a ha hx

end

/-! ## What `malloc` gives -/

/-- The headers that so many bytes need, with the one in front. -/
def units (nbytes : UInt32) : Nat := (nbytes.toNat + 7) / 8 + 1

/-- The block at `ap` holds so many bytes, and it lies in memory from `sbrk`. -/
structure Holds (nbytes : UInt32) (ap : Nat) (h : Heap) : Prop where
  payload : nbytes.toNat ≤ 8 * (h.size (header ap) - 1)
  inside : ∀ x, InInterval x (header ap, 8 * h.size (header ap)) → ∃ a ∈ h.areas, InInterval x a

/-- The bytes that `morecore` asks for do not fit into an `int` from some number of bytes on. -/
theorem sbrkArg_eq_iff (nbytes : UInt32) :
    (sbrkArg (nunits nbytes)).toInt = 8 * max 4096 (units nbytes : Int) ↔
      nbytes.toNat ≤ 2 ^ 31 - 16 := by
  have hsize : Int32.size = 2 ^ 32 := rfl
  rw [sbrkArg, coreUnits, Int32.toInt_ofNat', nunits, units, Int.bmod_def, hsize]
  split <;> omega

/-- A block that `malloc` returns has room for what was asked. -/
theorem Allocated.holds {base ap : Nat} {nbytes : UInt32} {live : List Block} {h h' : Heap}
    (ha : Allocated base (nunits nbytes) live h ap h') (hn : nbytes.toNat + 7 < 2 ^ 32) :
    ap = 0 ∨ Holds nbytes ap h' := by
  obtain ⟨-, ⟨h0, -⟩ | ⟨-, bs, hi⟩⟩ := ha
  · exact .inl h0
  · have hsize : h'.size (header ap) = nunits nbytes := (hi.held _ mem_cons_self).1
    refine .inr ⟨?_, fun x hx => ?_⟩
    · rw [hsize, nunits]
      omega
    · rw [← cover_pos, ← hi.tiles.total, bytes_cons, cover_cons, if_pos (hsize ▸ hx)]
      omega

/-- For every number of bytes: `morecore` asks `sbrk` for the bytes that are needed, and from every
state of the allocator `malloc` returns 0 or a block that holds what was asked for, in memory of the
process, if and only if the bytes asked for, with the headers, fit into an `int`. -/
theorem malloc_gives_iff (nbytes : UInt32) :
    ((sbrkArg (nunits nbytes)).toInt = 8 * max 4096 (units nbytes : Int) ∧
      ∀ base h live, Good base h live →
        Sat (· = .disabled) (malloc base nbytes) h fun ap h' => ap = 0 ∨ Holds nbytes ap h') ↔
      nbytes.toNat ≤ 2 ^ 31 - 16 := by
  rw [← sbrkArg_eq_iff, and_iff_left_of_imp]
  intro harg base h live hg
  have hle := (sbrkArg_eq_iff nbytes).1 harg
  have hn : nunits nbytes * 8 < 2 ^ 32 := by
    rw [nunits]
    omega
  exact (hg.malloc hn).weaken fun ap h' ha => ha.holds (by omega)

/-- A request whose number of headers wraps: the block that `malloc` returns has no room at all. -/
theorem malloc_gives_nothing : ∃ ap h, malloc 4096 0xFFFFFFFF
    ⟨Bytes.zero, 0, 8192, [], [some 8192]⟩ = .ok (ap, h) ∧ ap ≠ 0 ∧ h.size (header ap) = 1 := by
  have hrun : ∃ r, malloc 4096 0xFFFFFFFF ⟨Bytes.zero, 0, 8192, [], [some 8192]⟩ = .ok r ∧
      decide (r.1 ≠ 0 ∧ r.2.size (header r.1) = 1) = true := exists_ok (by decide +kernel)
  obtain ⟨⟨ap, h⟩, hr, hcheck⟩ := hrun
  exact ⟨ap, h, hr, of_decide_eq_true hcheck⟩

end TronBoss.Umalloc
