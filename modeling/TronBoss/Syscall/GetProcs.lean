import TronBoss.Proc.SectionSpec
import TronBoss.Syscall.Args

/-!
# The system call `getprocs`

`sys_getprocs` checks that one `struct uproc` fits at the user's pointer, and `copyactiveprocs` then
stores as many as there are active processes, up to `max` taken as an unsigned number. The model
keeps every store with its address and its bytes.
-/

namespace TronBoss.Syscall

open Lib List
open Fs (strncpy length_strncpy)

/-- Bytes that are stored from an address on. -/
structure Store where
  addr : UInt32
  bytes : List UInt8
  deriving DecidableEq, Repr

/-- The addresses of the bytes of a store. -/
def Store.addrs (x : Store) : List UInt32 := File.span x.addr x.bytes.length

/-- The texts of `states[]`. -/
def stateText : ProcState → String
  | .unused => "unused"
  | .embryo => "embryo"
  | .sleeping => "sleep "
  | .runnable => "runble"
  | .running => "run   "
  | .zombie => "zombie"

/-- `sizeof(struct uproc)`: six words, `state[STRMAX]`, `size`, `name[STRMAX]` and `priority`. -/
def sizeofUproc : Nat := 96

/-- The assignment of a word to a field of `*utable`. -/
def storeWord (utable : UInt32) (off : Nat) (v : UInt32) : Store :=
  ⟨utable + UInt32.ofNat off, leBytes 4 v.toNat⟩

/-- `strncpy` to a field of `*utable`. -/
def storeString (utable : UInt32) (off n : Nat) (text : List UInt8) : Store :=
  ⟨utable + UInt32.ofNat off, strncpy n text⟩

/-- The stores of `copyactiveprocs` for one process, in the order of the source. `name` is the
memory from `p->name` on. -/
def copyproc (t : PTable) (name : Slot → List UInt8) (p : Slot) (utable : UInt32) : List Store :=
  let q := t.proc p
  [storeWord utable 0 q.pid, storeWord utable 4 q.uid, storeWord utable 8 q.gid,
    storeWord utable 12 (match q.parent with
      | some parent => (t.proc parent).pid
      | none => q.pid),
    storeWord utable 92 q.priority, storeWord utable 56 q.sz,
    storeWord utable 16 (t.ticks - q.startTicks), storeWord utable 20 q.cpuTicksTotal,
    -- `sizeof(p -> name) + 1` and `sizeof(p -> state) + 1`
    storeString utable 60 17 (name p), storeString utable 24 5 (stateText q.state).toUTF8.toList]

/-- A process that `copyactiveprocs` copies. -/
def Active (q : Proc) : Prop := q.state ≠ .unused ∧ q.state ≠ .embryo

instance (q : Proc) : Decidable (Active q) := inferInstanceAs (Decidable (_ ∧ _))

/-- The loop of `copyactiveprocs` over the slots that are left, with its counter. -/
def copyactiveprocsLoop (t : PTable) (name : Slot → List UInt8) (max : UInt32) :
    List Slot → Nat → UInt32 → List Store × Nat
  | [], active, _ => ([], active)
  | p :: ps, active, utable =>
    if UInt32.ofNat active < max then
      if Active (t.proc p) then
        let (xs, n) := copyactiveprocsLoop t name max ps (active + 1)
          (utable + UInt32.ofNat sizeofUproc)
        (copyproc t name p utable ++ xs, n)
      else copyactiveprocsLoop t name max ps active utable
    else ([], active)

/-- `copyactiveprocs`: the stores, and the number of processes. -/
def copyactiveprocs (t : PTable) (name : Slot → List UInt8) (max utable : UInt32) :
    List Store × Nat :=
  copyactiveprocsLoop t name max (List.finRange NPROC) 0 utable

/-- `sys_getprocs`: what it stores, when its checks succeed. -/
def sysGetprocs (m : Image) (t : PTable) (name : Slot → List UInt8) : Option (List Store × Nat) := do
  let array_size ← argint m 0
  let utable ← argptr m 1 (Int32.ofNat sizeofUproc)
  return copyactiveprocs t name array_size utable

/-- The number of processes that `copyactiveprocs` could copy. -/
def activeCount (t : PTable) : Nat := (List.finRange NPROC).countP fun p => Active (t.proc p)

section
variable {t : PTable} {name : Slot → List UInt8} {u : UInt32}

/-- The addresses of a store to a field. -/
theorem mem_addrs {off w : Nat} {bytes : List UInt8} (hw : bytes.length = w) {a : UInt32} :
    a ∈ Store.addrs ⟨u + UInt32.ofNat off, bytes⟩ ↔ ∃ j < w, a = u + UInt32.ofNat (off + j) := by
  simp only [Store.addrs, File.span, hw, mem_map, mem_range, UInt32.ofNat_add,
    UInt32.add_assoc]
  exact exists_congr fun j => and_congr_right fun _ => eq_comm

/-- The stores for one process are inside its `struct uproc`. -/
theorem copyproc_within {p : Slot} {x : Store} (hx : x ∈ copyproc t name p u) {a : UInt32}
    (ha : a ∈ x.addrs) : ∃ d < sizeofUproc, a = u + UInt32.ofNat d := by
  have hfield : ∀ {off w : Nat} {bytes : List UInt8}, bytes.length = w → off + w ≤ sizeofUproc →
      a ∈ Store.addrs ⟨u + UInt32.ofNat off, bytes⟩ →
      ∃ d < sizeofUproc, a = u + UInt32.ofNat d := by
    intro off w bytes hw hfit ha
    obtain ⟨j, hj, rfl⟩ := (mem_addrs hw).1 ha
    exact ⟨off + j, by omega, rfl⟩
  have hword : ∀ {off : Nat} {v : UInt32}, off + 4 ≤ sizeofUproc →
      a ∈ (storeWord u off v).addrs → ∃ d < sizeofUproc, a = u + UInt32.ofNat d :=
    fun hfit => hfield (length_leBytes ..) hfit
  have hstring : ∀ {off n : Nat} {text : List UInt8}, off + n ≤ sizeofUproc →
      a ∈ (storeString u off n text).addrs → ∃ d < sizeofUproc, a = u + UInt32.ofNat d :=
    fun hfit => hfield (length_strncpy ..) hfit
  simp only [copyproc, mem_cons, not_mem_nil, or_false] at hx
  rcases hx with rfl | rfl | rfl | rfl | rfl | rfl | rfl | rfl | rfl | rfl
  case inr.inr.inr.inr.inr.inr.inr.inr.inl => exact hstring (by decide) ha
  case inr.inr.inr.inr.inr.inr.inr.inr.inr => exact hstring (by decide) ha
  all_goals exact hword (by decide) ha

/-- The last byte of the `struct uproc` is stored. -/
theorem copyproc_last (t : PTable) (name : Slot → List UInt8) (u : UInt32) (p : Slot) :
    ∃ x ∈ copyproc t name p u, u + UInt32.ofNat (sizeofUproc - 1) ∈ x.addrs := by
  refine ⟨storeWord u 92 (t.proc p).priority, by simp [copyproc], ?_⟩
  exact (mem_addrs (length_leBytes ..)).2 ⟨3, by decide, rfl⟩

/-- What the loop of `copyactiveprocs` has done to an array of `k` entries from `u` on: its stores
are inside the array, and the last byte of the array is stored. -/
structure Fills (u : UInt32) (k : Nat) (xs : List Store) : Prop where
  within : ∀ x ∈ xs, ∀ a ∈ x.addrs, ∃ d < sizeofUproc * k, a = u + UInt32.ofNat d
  last : 0 < k → ∃ x ∈ xs, u + UInt32.ofNat (sizeofUproc * k - 1) ∈ x.addrs

theorem Fills.nil : Fills u 0 [] := ⟨nofun, nofun⟩

/-- One more entry in front. -/
theorem Fills.cons {p : Slot} {k : Nat} {xs : List Store}
    (h : Fills (u + UInt32.ofNat sizeofUproc) k xs) :
    Fills u (k + 1) (copyproc t name p u ++ xs) := by
  have hshift : ∀ d, u + UInt32.ofNat sizeofUproc + UInt32.ofNat d =
      u + UInt32.ofNat (sizeofUproc + d) := fun d => by
    rw [UInt32.ofNat_add, UInt32.add_assoc]
  have hsize : sizeofUproc * (k + 1) = sizeofUproc + sizeofUproc * k := by ring
  have hpos : 0 < sizeofUproc := by decide
  refine ⟨fun x hx a ha => ?_, fun _ => ?_⟩
  · rcases mem_append.1 hx with hx | hx
    · obtain ⟨d, hd, rfl⟩ := copyproc_within hx ha
      exact ⟨d, by omega, rfl⟩
    · obtain ⟨d, hd, rfl⟩ := h.within x hx a ha
      exact ⟨sizeofUproc + d, by omega, hshift d⟩
  · rcases Nat.eq_zero_or_pos k with rfl | hk
    · obtain ⟨x, hx, ha⟩ := copyproc_last t name u p
      exact ⟨x, mem_append_left _ hx, ha⟩
    · obtain ⟨x, hx, ha⟩ := h.last hk
      refine ⟨x, mem_append_right _ hx, ?_⟩
      have hk' : 0 < sizeofUproc * k := Nat.mul_pos hpos hk
      rwa [hshift, ← Nat.add_sub_assoc hk', ← hsize] at ha

theorem ofNat_lt_iff {n : Nat} {max : UInt32} (h : n ≤ max.toNat) :
    UInt32.ofNat n < max ↔ n < max.toNat := by
  rw [UInt32.lt_iff_toNat_lt, UInt32.toNat_ofNat_of_lt' (lt_of_le_of_lt h max.toNat_lt)]

/-- The loop fills as many entries as there are active processes left, up to `max`. -/
theorem copyactiveprocsLoop_fills {max : UInt32} : ∀ (ps : List Slot) (active : Nat) (u : UInt32),
    active ≤ max.toNat →
    (copyactiveprocsLoop t name max ps active u).2 =
      min (active + ps.countP fun p => Active (t.proc p)) max.toNat ∧
    Fills u ((copyactiveprocsLoop t name max ps active u).2 - active)
      (copyactiveprocsLoop t name max ps active u).1
  | [], active, u, hle => by
    rw [copyactiveprocsLoop, List.countP_nil, Nat.add_zero, Nat.min_eq_left hle, Nat.sub_self]
    exact ⟨rfl, .nil⟩
  | p :: ps, active, u, hle => by
    have hlt := ofNat_lt_iff hle
    rw [copyactiveprocsLoop]
    split
    · next h =>
      have hmax := hlt.1 h
      split
      · next hact =>
        obtain ⟨hn, hf⟩ := copyactiveprocsLoop_fills ps (active + 1)
          (u + UInt32.ofNat sizeofUproc) hmax
        dsimp only
        rw [countP_cons_of_pos (by simpa using hact)]
        refine ⟨by rw [hn]; omega, ?_⟩
        have hk : (copyactiveprocsLoop t name max ps (active + 1)
            (u + UInt32.ofNat sizeofUproc)).2 - active =
            (copyactiveprocsLoop t name max ps (active + 1)
              (u + UInt32.ofNat sizeofUproc)).2 - (active + 1) + 1 := by
          omega
        rw [hk]
        exact hf.cons
      · next hact =>
        rw [countP_cons_of_neg (by simpa using hact)]
        exact copyactiveprocsLoop_fills ps active u hle
    · next h =>
      have hmax : max.toNat ≤ active := Nat.le_of_not_lt fun h' => h (hlt.2 h')
      rw [Nat.sub_self]
      exact ⟨by dsimp only; omega, .nil⟩

end

/-- The stores of the call are inside the array of `max` entries that the caller names, and below
its `sz`. -/
def WithinCaller (sz u max : UInt32) (xs : List Store) : Prop :=
  ∀ x ∈ xs, ∀ a ∈ x.addrs,
    (u.toNat ≤ a.toNat ∧ a.toNat < u.toNat + max.toInt32.toInt.toNat * sizeofUproc) ∧ a < sz

/-- The call stays in the caller's memory exactly if it copies nothing, or `max` is not negative and
all the entries that it copies fit below `sz`. -/
theorem getprocs_within_iff (m : Image) (t : PTable) (name : Slot → List UInt8) {max u : UInt32}
    (hmax : argint m 0 = some max) (hu : argptr m 1 (Int32.ofNat sizeofUproc) = some u) :
    sysGetprocs m t name = some (copyactiveprocs t name max u) ∧
    (WithinCaller m.sz u max (copyactiveprocs t name max u).1 ↔
      min (activeCount t) max.toNat = 0 ∨ 0 ≤ max.toInt32.toInt ∧
        u.toNat + sizeofUproc * min (activeCount t) max.toNat ≤ m.sz.toNat) := by
  refine ⟨by rw [sysGetprocs, hmax, Option.bind_eq_bind, Option.bind_some, hu]; rfl, ?_⟩
  obtain ⟨hn, hf⟩ := copyactiveprocsLoop_fills (t := t) (List.finRange NPROC) 0 u
    (Nat.zero_le max.toNat)
  rw [Nat.sub_zero, hn, Nat.zero_add] at hf
  change Fills u (min (activeCount t) max.toNat) (copyactiveprocs t name max u).1 at hf
  have hcount : activeCount t ≤ NPROC := countP_le_length.trans_eq length_finRange
  have hN : NPROC = 64 := rfl
  generalize hk : min (activeCount t) max.toNat = k at hf ⊢
  have hsize : sizeofUproc = 96 := rfl
  have hsz := m.sz.toNat_lt
  have hmaxi := toNat_toUInt32 max.toInt32
  rw [UInt32.toUInt32_toInt32] at hmaxi
  have haddr : ∀ d < 2 ^ 32, (u + UInt32.ofNat d).toNat = (u.toNat + d) % 2 ^ 32 := fun d hd => by
    rw [UInt32.toNat_add, UInt32.toNat_ofNat_of_lt' hd]
  constructor
  · intro h
    rcases Nat.eq_zero_or_pos k with h0 | hpos
    · exact .inl h0
    · obtain ⟨x, hx, ha⟩ := hf.last hpos
      obtain ⟨⟨h₁, h₂⟩, h₃⟩ := h x hx _ ha
      rw [UInt32.lt_iff_toNat_lt] at h₃
      rw [hsize, haddr _ (by omega)] at h₁ h₂ h₃
      rw [hsize]
      exact .inr ⟨by omega, by omega⟩
  · rintro h x hx a ha
    obtain ⟨d, hd, rfl⟩ := hf.within x hx a ha
    rw [hsize] at hd h ⊢
    rcases h with rfl | ⟨h₁, h₂⟩
    · omega
    · rw [UInt32.lt_iff_toNat_lt, haddr d (by omega), Nat.mod_eq_of_lt (by omega)]
      omega

/-- A process of one page that calls `getprocs(max, 4000)`: one `struct uproc` fits at the end of the
page. -/
def getprocsImage (max : UInt8) : Image where
  mem a := if a = 104 then max else if a = 108 then 160 else if a = 109 then 15 else 0
  sz := 4096
  esp := 100

/-- A table with two processes. -/
def twoProcs : PTable :=
  { PTable.zero with proc := fun p => if p.val < 2 then { Proc.zero with state := .running } else .zero }

/-- With `max` one, the entry that is checked is the only one. -/
theorem getprocs_within_iff_one :
    argint (getprocsImage 1) 0 = some 1 ∧
      argptr (getprocsImage 1) 1 (Int32.ofNat sizeofUproc) = some 4000 ∧
      WithinCaller 4096 4000 1 (copyactiveprocs twoProcs (fun _ => []) 1 4000).1 := by
  have hmax : argint (getprocsImage 1) 0 = some 1 := by decide
  have hu : argptr (getprocsImage 1) 1 (Int32.ofNat sizeofUproc) = some 4000 := by decide
  have hcount : min (activeCount twoProcs) (1 : UInt32).toNat = 1 := by decide +kernel
  refine ⟨hmax, hu, (getprocs_within_iff (getprocsImage 1) twoProcs (fun _ => []) hmax hu).2.2 ?_⟩
  rw [hcount]
  exact .inr ⟨by decide, by decide⟩

/-- With `max` two, the second entry is stored behind the end of the memory of the process. -/
theorem getprocs_writes_past_sz :
    argint (getprocsImage 2) 0 = some 2 ∧
      argptr (getprocsImage 2) 1 (Int32.ofNat sizeofUproc) = some 4000 ∧
      sysGetprocs (getprocsImage 2) twoProcs (fun _ => []) =
        some (copyactiveprocs twoProcs (fun _ => []) 2 4000) ∧
      ¬ WithinCaller 4096 4000 2 (copyactiveprocs twoProcs (fun _ => []) 2 4000).1 := by
  have hstore : storeWord 4096 92 0 ∈ (copyactiveprocs twoProcs (fun _ => []) 2 4000).1 := by
    decide +kernel
  have haddr : (4188 : UInt32) ∈ (storeWord 4096 92 0).addrs := by decide
  refine ⟨by decide, by decide, rfl, fun h => ?_⟩
  exact absurd (h _ hstore _ haddr).2 (by decide)

end TronBoss.Syscall
