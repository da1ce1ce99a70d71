import TronBoss.Vm.Uvm

/-!
# Copying to user memory

`uva2ka` and `copyout` of `vm.c`. `uva2ka` reads the entry that `walkpgdir` finds and does not look
whether it found one: a page without a table is read through the null pointer. `copyout` is right
as long as it does not get to such a page, and the theorem says for which directories this is.
-/

namespace TronBoss.Vm

open Lib Function List

/-- `uva2ka`. Without a table it reads the entry through the null pointer. -/
def uva2ka (d : PgDir) (uva : UInt32) : Routine Mem UInt32 := do
  match ← walkpgdir d uva false with
  | none => throw .outOfBounds
  | some d =>
    if d.pte uva &&& PTE_P = 0 then return 0
    else if d.pte uva &&& PTE_U = 0 then return 0
    else return p2v (PTE_ADDR (d.pte uva))

/-- The loop of `copyout` with the bytes `buf` left to copy, in at most so many turns. A page that is
not in the physical memory is written out of bounds. -/
def copyoutLoop (d : PgDir) : Nat → UInt32 → List UInt8 → Routine Mem Int
  | 0, _, _ => throw .diverge
  | k + 1, va, buf =>
    if 0 < buf.length then do
      let va0 := PGROUNDDOWN va
      let pa0 ← uva2ka d va0
      if pa0 = 0 then return -1
      else if PHYSTOP ≤ v2p pa0 then throw .outOfBounds
      else
        let n := min (PGSIZE - (va - va0)).toNat buf.length
        modify fun m => m.poke (v2p pa0) (va - va0).toNat (buf.take n)
        copyoutLoop d k (va0 + PGSIZE) (buf.drop n)
    else return 0

/-- `copyout`, with the bytes from `p` on. -/
@[irreducible] def copyout (d : PgDir) (va : UInt32) (buf : List UInt8) : Routine Mem Int :=
  copyoutLoop d (buf.length + 1) va buf

/-! ## What `copyout` is for -/

/-- The page of the byte `i` of the range from `va` on. -/
def pageOf (va : UInt32) (i : Nat) : Nat := vpn (va + UInt32.ofNat i)

/-- The page is present and user code may use it. -/
def PgDir.User (d : PgDir) (v : Nat) : Prop := Present (d.entry v) ∧ d.entry v &&& PTE_U ≠ 0

/-- Every page that meets the range is a user page. -/
def PgDir.AllUser (d : PgDir) (va : UInt32) (len : Nat) : Prop := ∀ i < len, d.User (pageOf va i)

/-- The place in the physical memory of the byte `i` of the range from `va` on. -/
def PgDir.place (d : PgDir) (va : UInt32) (i : Nat) : UInt32 × Nat :=
  (PTE_ADDR (d.entry (pageOf va i)), (va.toNat + i) % 4096)

/-- The byte at a place. -/
def Mem.byte (m : Mem) (p : UInt32 × Nat) : UInt8 := (m.frame p.1).get p.2

/-- The bytes of the range are those of `buf`, and the others are as they were. -/
structure Stored (d : PgDir) (va : UInt32) (buf : List UInt8) (m m' : Mem) : Prop where
  bytes : ∀ i < buf.length, buf[i]? = some (m'.byte (d.place va i))
  rest : ∀ pa, ∀ off < 4096, (∀ i < buf.length, d.place va i ≠ (pa, off)) →
    m'.byte (pa, off) = m.byte (pa, off)

/-- `copyout` returns, with `0` when the range is user memory, which then has the bytes, and with
`-1` when it is not. -/
def CopiesOut (d : PgDir) (va : UInt32) (buf : List UInt8) (m : Mem) : Prop :=
  Sat (fun _ => False) (copyout d va buf) m fun r m' =>
    (r = 0 ↔ d.AllUser va buf.length) ∧ (r = 0 ∨ r = -1) ∧ (r = 0 → Stored d va buf m m')

/-- A user page in the physical memory. -/
def PgDir.Writable (d : PgDir) (v : Nat) : Prop := d.User v ∧ PTE_ADDR (d.entry v) < PHYSTOP

/-- Each page that the loop gets to has a table, and is in the physical memory when it is a user
page. (For a page at the physical address `KERNBASE` the answer is `-1`.) -/
def PgDir.Walks (d : PgDir) (va : UInt32) (len : Nat) : Prop :=
  ∀ i < len, (∀ j < i, d.Writable (pageOf va j)) → d.HasTable (pageOf va i) ∧
    (d.User (pageOf va i) → d.Writable (pageOf va i) ∨
      PTE_ADDR (d.entry (pageOf va i)) = KERNBASE ∧ ¬ d.AllUser va len)

/-- No place gets two different bytes. -/
def PgDir.Agrees (d : PgDir) (va : UInt32) (buf : List UInt8) : Prop :=
  ∀ i < buf.length, ∀ j < buf.length, d.place va i = d.place va j → buf[i]? = buf[j]?

/-! ## A page of the range -/

section
variable {d : PgDir} {va : UInt32} {buf : List UInt8} {m m' : Mem} {i j len : Nat}

/-- The bytes from an address to the end of its page. -/
def toPageEnd (va : UInt32) : Nat := 4096 - va.toNat % 4096

theorem toPageEnd_pos (va : UInt32) : 0 < toPageEnd va := by
  rw [toPageEnd]
  omega

theorem toNat_sub_PGROUNDDOWN : (va - PGROUNDDOWN va).toNat = va.toNat % 4096 := by
  have hle : PGROUNDDOWN va ≤ va := by
    rw [UInt32.le_iff_toNat_le, toNat_PGROUNDDOWN]
    omega
  rw [UInt32.toNat_sub_of_le _ _ hle, toNat_PGROUNDDOWN]
  omega

theorem toNat_PGSIZE_sub : (PGSIZE - (va - PGROUNDDOWN va)).toNat = toPageEnd va := by
  have hle : va - PGROUNDDOWN va ≤ PGSIZE := by
    rw [UInt32.le_iff_toNat_le, toNat_sub_PGROUNDDOWN, toNat_PGSIZE]
    omega
  rw [UInt32.toNat_sub_of_le _ _ hle, toNat_sub_PGROUNDDOWN, toNat_PGSIZE, toPageEnd]

theorem vpn_PGROUNDDOWN : vpn (PGROUNDDOWN va) = vpn va := by
  rw [vpn, vpn, toNat_PGROUNDDOWN]
  omega

/-- The range up to the end of the page is in it. -/
theorem pageOf_of_lt (hi : i < toPageEnd va) : pageOf va i = vpn va := by
  have hva := va.toNat_lt
  rw [toPageEnd] at hi
  rw [pageOf, vpn, toNat_add_ofNat, vpn]
  omega

theorem pageOf_zero (va : UInt32) : pageOf va 0 = vpn va := pageOf_of_lt (toPageEnd_pos va)

/-- The address that the next turn starts with. -/
theorem toNat_next : (PGROUNDDOWN va + PGSIZE).toNat = (va.toNat + toPageEnd va) % 2 ^ 32 := by
  rw [UInt32.toNat_add, toNat_PGROUNDDOWN, toNat_PGSIZE, toPageEnd]
  omega

theorem pageOf_next : pageOf (PGROUNDDOWN va + PGSIZE) i = pageOf va (toPageEnd va + i) := by
  rw [pageOf, pageOf, vpn, vpn, toNat_add_ofNat, toNat_add_ofNat, toNat_next]
  omega

theorem place_next : d.place (PGROUNDDOWN va + PGSIZE) i = d.place va (toPageEnd va + i) := by
  rw [PgDir.place, PgDir.place, pageOf_next, toNat_next]
  congr 1
  omega

theorem place_of_lt (hi : i < toPageEnd va) :
    d.place va i = (PTE_ADDR (d.entry (vpn va)), va.toNat % 4096 + i) := by
  rw [PgDir.place, pageOf_of_lt hi]
  rw [toPageEnd] at hi
  congr 1
  omega

/-- A position is in the first page, or it is one of the rest. -/
theorem first_or_next (va : UInt32) (hi : i < len) : i < toPageEnd va ∨
    ∃ j < len - min (toPageEnd va) len, i = toPageEnd va + j := by
  rcases Nat.lt_or_ge i (toPageEnd va) with h | h
  · exact .inl h
  · exact .inr ⟨i - toPageEnd va, by omega, by omega⟩

theorem add_lt_of_next (hj : j < len - min (toPageEnd va) len) : toPageEnd va + j < len := by
  omega

theorem allUser_turn (hlen : 0 < len) : d.AllUser va len ↔
    d.User (vpn va) ∧ d.AllUser (PGROUNDDOWN va + PGSIZE) (len - min (toPageEnd va) len) := by
  constructor
  · intro h
    refine ⟨pageOf_zero va ▸ h 0 hlen, fun j hj => ?_⟩
    rw [pageOf_next]
    exact h _ (add_lt_of_next hj)
  · intro ⟨h, hrest⟩ i hi
    rcases first_or_next va hi with hlt | ⟨j, hj, rfl⟩
    · exact pageOf_of_lt hlt ▸ h
    · exact pageOf_next ▸ hrest j hj

/-- `Walks` goes along with the turns of `copyout`. -/
theorem walks_turn (hlen : 0 < len) : d.Walks va len ↔
    d.HasTable (vpn va) ∧ (d.User (vpn va) → d.Writable (vpn va) ∨
      PTE_ADDR (d.entry (vpn va)) = KERNBASE ∧ ¬ d.AllUser va len) ∧
    (d.Writable (vpn va) →
      d.Walks (PGROUNDDOWN va + PGSIZE) (len - min (toPageEnd va) len)) := by
  constructor
  · intro h
    have hfirst := h 0 hlen nofun
    rw [pageOf_zero] at hfirst
    refine ⟨hfirst.1, hfirst.2, fun hw j hj hbefore => ?_⟩
    rw [pageOf_next]
    have hj' := h _ (add_lt_of_next hj) fun k hk => by
      rcases first_or_next va hk with hlt | ⟨k', hk', rfl⟩
      · exact pageOf_of_lt hlt ▸ hw
      · exact pageOf_next ▸ hbefore k' (by omega)
    rwa [allUser_turn hlen, and_iff_right hw.1] at hj'
  · intro ⟨ht, hu, hrest⟩ i hi hbefore
    rcases first_or_next va hi with hlt | ⟨j, hj, rfl⟩
    · rw [pageOf_of_lt hlt]
      exact ⟨ht, hu⟩
    · have hw : d.Writable (vpn va) :=
        pageOf_zero va ▸ hbefore 0 (Nat.add_pos_left (toPageEnd_pos va) j)
      have hj' := hrest hw j hj fun k hk =>
        pageOf_next ▸ hbefore (toPageEnd va + k) (by omega)
      rwa [pageOf_next, ← and_iff_right (b := d.AllUser _ _) hw.1, ← allUser_turn hlen] at hj'

/-- The bytes of a turn that is not the last. -/
theorem drop_next (hi : i < buf.length - min (toPageEnd va) buf.length) :
    (buf.drop (min (toPageEnd va) buf.length))[i]? = buf[toPageEnd va + i]? := by
  rw [getElem?_drop, Nat.min_eq_left (by omega)]

theorem agrees_next (h : d.Agrees va buf) :
    d.Agrees (PGROUNDDOWN va + PGSIZE) (buf.drop (min (toPageEnd va) buf.length)) := by
  intro i hi j hj hij
  rw [length_drop] at hi hj
  rw [place_next, place_next] at hij
  rw [drop_next hi, drop_next hj]
  exact h _ (add_lt_of_next hi) _ (add_lt_of_next hj) hij

/-- The memory after the `memmove` of a turn. -/
def PgDir.move (d : PgDir) (va : UInt32) (buf : List UInt8) (m : Mem) : Mem :=
  m.poke (PTE_ADDR (d.entry (vpn va))) (va.toNat % 4096)
    (buf.take (min (toPageEnd va) buf.length))

/-- A turn puts the bytes of its page in their places. -/
theorem byte_move (hi : i < toPageEnd va) (hlen : i < buf.length) :
    buf[i]? = some ((d.move va buf m).byte (d.place va i)) := by
  have hoff : va.toNat % 4096 + i < 4096 := by
    rw [toPageEnd] at hi
    omega
  rw [place_of_lt hi, PgDir.move]
  dsimp only [Mem.byte, Mem.poke]
  rw [update_self, Bytes.get_write hoff,
    length_take, if_pos (by omega), Nat.add_sub_cancel_left, getD_eq_getElem?_getD,
    getElem?_take_of_lt (by omega), getElem?_eq_getElem hlen, Option.getD_some]

/-- A turn leaves the other bytes. -/
theorem byte_move_of_ne {pa : UInt32} {off : Nat} (hoff : off < 4096)
    (h : ∀ i < buf.length, d.place va i ≠ (pa, off)) :
    (d.move va buf m).byte (pa, off) = m.byte (pa, off) := by
  dsimp only [PgDir.move, Mem.byte, Mem.poke]
  by_cases hpa : pa = PTE_ADDR (d.entry (vpn va))
  · rw [hpa, update_self, Bytes.get_write hoff, length_take]
    refine if_neg fun hin => ?_
    have hi : off - va.toNat % 4096 < toPageEnd va := by
      rw [toPageEnd]
      omega
    refine h (off - va.toNat % 4096) (by omega) ?_
    rw [place_of_lt hi, hpa, Nat.add_sub_cancel' hin.1]
  · rw [update_of_ne hpa]

/-- The turn and the turns after it. A place that gets a byte twice gets the same byte. -/
theorem Stored.turn (hagrees : d.Agrees va buf)
    (h : Stored d (PGROUNDDOWN va + PGSIZE) (buf.drop (min (toPageEnd va) buf.length))
      (d.move va buf m) m') : Stored d va buf m m' := by
  obtain ⟨hbytes, hrest⟩ := h
  rw [length_drop] at hbytes hrest
  simp only [place_next] at hbytes hrest
  have hlater : ∀ j < buf.length - min (toPageEnd va) buf.length,
      buf[toPageEnd va + j]? = some (m'.byte (d.place va (toPageEnd va + j))) :=
    fun j hj => drop_next hj ▸ hbytes j hj
  constructor
  · intro i hi
    by_cases hlater' : ∃ j < buf.length - min (toPageEnd va) buf.length,
        d.place va (toPageEnd va + j) = d.place va i
    · obtain ⟨j, hj, hij⟩ := hlater'
      rw [← hij, ← hlater j hj]
      exact hagrees _ hi _ (add_lt_of_next hj) hij.symm
    · rcases first_or_next va hi with hlt | ⟨j, hj, rfl⟩
      · rw [byte_move (d := d) (m := m) hlt hi]
        refine congrArg some (hrest _ _ (Nat.mod_lt _ (by decide)) fun j hj hij => ?_).symm
        exact hlater' ⟨j, hj, hij⟩
      · exact hlater j hj
  · intro pa off hoff hne
    rw [hrest pa off hoff fun j hj => hne _ (add_lt_of_next hj), byte_move_of_ne hoff hne]

/-! ## The loop -/

theorem p2v_eq_zero_iff {pa : UInt32} : p2v pa = 0 ↔ pa = KERNBASE := by
  rw [p2v, ← UInt32.toNat_inj, ← UInt32.toNat_inj, UInt32.toNat_add, toNat_KERNBASE,
    UInt32.toNat_zero]
  have hpa := pa.toNat_lt
  omega

theorem v2p_p2v {pa : UInt32} : v2p (p2v pa) = pa := by
  rw [v2p, p2v, UInt32.add_sub_cancel]

theorem PgDir.User.hasTable {v : Nat} (h : d.User v) : d.HasTable v := hasTable_of_present h.1

/-- `uva2ka` stops at a missing table, and gives no address of a page that is not for the user. -/
theorem sat_uva2ka {E : Stop → Prop} {Q : UInt32 → Mem → Prop} :
    Sat E (uva2ka d va) m Q ↔ (¬ d.HasTable (vpn va) → E .outOfBounds) ∧
      (d.HasTable (vpn va) → ¬ d.User (vpn va) → Q 0 m) ∧
      (d.User (vpn va) → Q (p2v (PTE_ADDR (d.entry (vpn va)))) m) := by
  rw [uva2ka, walkpgdir]
  have hpde : (d.pde (PDX va)).isSome = true ↔ d.HasTable (vpn va) := by
    rw [PgDir.HasTable, PDX_eq_tableOf]
  by_cases ht : d.HasTable (vpn va)
  · rw [if_pos (hpde.2 ht), sat_pure_bind]
    dsimp only
    rw [PgDir.pte_eq]
    by_cases hp : Present (d.entry (vpn va))
    · by_cases hu : d.entry (vpn va) &&& PTE_U = 0
      · rw [if_neg hp, if_pos hu, sat_pure]
        simp [ht, PgDir.User, hu]
      · rw [if_neg hp, if_neg hu, sat_pure]
        simp [ht, PgDir.User, hu, hp]
    · rw [if_pos (not_not.1 hp), sat_pure]
      simp [ht, PgDir.User, hp]
  · rw [if_neg (mt hpde.1 ht), if_pos rfl, sat_pure_bind]
    rw [sat_throw]
    simp [ht, mt PgDir.User.hasTable ht]

/-- A turn that does not stop. -/
theorem sat_copyoutTurn {k : Nat} {Q : Int → Mem → Prop} (hlen : 0 < buf.length) :
    Sat (fun _ => False) (copyoutLoop d (k + 1) va buf) m Q ↔ d.HasTable (vpn va) ∧
      (¬ d.User (vpn va) → Q (-1) m) ∧
      (d.User (vpn va) → d.Writable (vpn va) ∨ PTE_ADDR (d.entry (vpn va)) = KERNBASE ∧ Q (-1) m) ∧
      (d.Writable (vpn va) → Sat (fun _ => False)
        (copyoutLoop d k (PGROUNDDOWN va + PGSIZE) (buf.drop (min (toPageEnd va) buf.length)))
        (d.move va buf m) Q) := by
  rw [copyoutLoop, if_pos hlen, sat_bind, sat_uva2ka, vpn_PGROUNDDOWN]
  simp only [p2v_eq_zero_iff, v2p_p2v, toNat_sub_PGROUNDDOWN, toNat_PGSIZE_sub]
  by_cases ht : d.HasTable (vpn va)
  · by_cases hu : d.User (vpn va)
    · by_cases hp : PTE_ADDR (d.entry (vpn va)) < PHYSTOP
      · have hk : PTE_ADDR (d.entry (vpn va)) ≠ KERNBASE := by
          intro hk
          rw [hk] at hp
          exact absurd hp (by decide)
        have hw : d.Writable (vpn va) := ⟨hu, hp⟩
        rw [if_neg hk, if_neg (UInt32.not_le.2 hp), sat_modify_bind]
        simp [ht, hu, hw, PgDir.move]
      · have hw : ¬ d.Writable (vpn va) := fun hw => hp hw.2
        by_cases hk : PTE_ADDR (d.entry (vpn va)) = KERNBASE
        · rw [if_pos hk, sat_pure]
          simp [ht, hu, hw, hk]
        · rw [if_neg hk, if_pos (UInt32.not_lt.1 hp), sat_throw]
          simp [hu, hw, hk]
    · rw [if_pos trivial, sat_pure]
      simp [ht, hu, PgDir.Writable]
  · exact ⟨fun h => (h.1 ht).elim, fun h => absurd h.1 ht⟩

/-- The loop is right where it gets to no page that it cannot take. -/
theorem sat_copyoutLoop : ∀ {k : Nat} {va : UInt32} {buf : List UInt8} {m : Mem},
    buf.length < k → d.Walks va buf.length →
    Sat (fun _ => False) (copyoutLoop d k va buf) m fun r m' =>
      r = 0 ∧ d.AllUser va buf.length ∧ (d.Agrees va buf → Stored d va buf m m') ∨
      r = -1 ∧ ¬ d.AllUser va buf.length
  | k + 1, va, buf, m, hk, hwalks => by
    rcases Nat.eq_zero_or_pos buf.length with hlen | hlen
    · rw [copyoutLoop, if_neg (by omega), sat_pure, hlen]
      refine .inl ⟨rfl, nofun, fun _ => ⟨?_, fun _ _ _ _ => rfl⟩⟩
      rw [hlen]
      nofun
    · obtain ⟨ht, hu, hnext⟩ := (walks_turn hlen).1 hwalks
      have hpos := toPageEnd_pos va
      refine (sat_copyoutTurn hlen).2 ⟨ht, fun h => ?_, fun h => ?_, fun hw => ?_⟩
      · exact .inr ⟨rfl, fun hall => h ((allUser_turn hlen).1 hall).1⟩
      · exact (hu h).imp_right fun ⟨hk, hall⟩ => ⟨hk, .inr ⟨rfl, hall⟩⟩
      · have hd := length_drop (l := buf) (i := min (toPageEnd va) buf.length)
        refine (sat_copyoutLoop (by omega) (hd ▸ hnext hw)).weaken fun r m' hr => ?_
        rw [hd] at hr
        rw [allUser_turn hlen, and_iff_right hw.1]
        exact hr.imp_left fun ⟨hr, hall, hs⟩ => ⟨hr, hall, fun ha => (hs (agrees_next ha)).turn ha⟩

/-- The loop is right nowhere else. -/
theorem walks_of_sat : ∀ {k : Nat} {va : UInt32} {buf : List UInt8} {m : Mem},
    Sat (fun _ => False) (copyoutLoop d k va buf) m (fun r _ => r = 0 ↔ d.AllUser va buf.length) →
    d.Walks va buf.length
  | 0, _, _, _, h => h.elim
  | k + 1, va, buf, m, h => by
    rcases Nat.eq_zero_or_pos buf.length with hlen | hlen
    · rw [hlen]
      nofun
    · obtain ⟨ht, -, hu, hnext⟩ := (sat_copyoutTurn hlen).1 h
      refine (walks_turn hlen).2 ⟨ht, fun h => ?_, fun hw => ?_⟩
      · exact (hu h).imp_right fun ⟨hk, hr⟩ => ⟨hk, fun hall => absurd (hr.2 hall) (by decide)⟩
      · have hw' := hnext hw
        rw [allUser_turn hlen, and_iff_right hw.1, ← length_drop] at hw'
        rw [← length_drop]
        exact walks_of_sat hw'

/-- `copyout` is right exactly when each page it gets to has a table and is in the physical memory,
and no place of the range is to get two different bytes. -/
theorem copyout_right_iff (d : PgDir) (va : UInt32) (buf : List UInt8) (m : Mem) :
    CopiesOut d va buf m ↔
      d.Walks va buf.length ∧ (d.AllUser va buf.length → d.Agrees va buf) := by
  rw [CopiesOut, copyout]
  constructor
  · intro h
    have hwalks : d.Walks va buf.length := walks_of_sat (h.weaken fun r m' hr => hr.1)
    obtain ⟨r, m', -, hr, -, hs⟩ := h.returns
    refine ⟨hwalks, fun hall i hi j hj hij => ?_⟩
    have hstored := hs (hr.2 hall)
    rw [hstored.bytes i hi, hstored.bytes j hj, hij]
  · intro ⟨hwalks, hagrees⟩
    refine (sat_copyoutLoop (Nat.lt_succ_self _) hwalks).weaken fun r m' hr => ?_
    rcases hr with ⟨rfl, hall, hs⟩ | ⟨rfl, hall⟩
    · exact ⟨iff_of_true rfl hall, .inl rfl, fun _ => hs (hagrees hall)⟩
    · exact ⟨iff_of_false (by decide) hall, .inr rfl, fun h => absurd h (by decide)⟩

/-- In a directory without tables, `copyout` reads an entry through the null pointer. -/
theorem copyout_without_table : (copyout (.empty 0) 0 [1]).run (.zero fun _ => .zero) =
    .error .outOfBounds ∧ ¬ CopiesOut (.empty 0) 0 [1] (.zero fun _ => .zero) := by
  have hrun : (copyout (.empty 0) 0 [1]).run (.zero fun _ => .zero) = .error .outOfBounds := by
    rw [copyout]
    rfl
  exact ⟨hrun, fun h => h.of_error hrun⟩

end

end TronBoss.Vm
