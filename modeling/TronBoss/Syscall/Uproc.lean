import TronBoss.Syscall.GetProcs

/-!
# What `getprocs` tells its caller

The stores of `copyactiveprocs` are writes to the fields of an array of `struct uproc`, one entry for
each active process in the order of the table. The numbers and the name arrive. Of the name of a state,
which has six characters, `strncpy` is asked for `sizeof(p -> state) + 1`, five; the sixth and the
terminating zero are what the caller's memory held before.
-/

namespace TronBoss.Syscall

open Lib List List
open Fs (strncpy length_strncpy)

/-- A `struct uproc`. -/
structure Uproc where
  pid : UInt32
  uid : UInt32
  gid : UInt32
  ppid : UInt32
  elapsedTicks : UInt32
  cpuTotalTicks : UInt32
  state : List UInt8
  size : UInt32
  name : List UInt8
  priority : UInt32
  deriving DecidableEq, Repr

/-- The `struct uproc` at an offset. -/
def uprocAt {n : Nat} (b : Bytes n) (d : Nat) : Uproc where
  pid := b.read32 d
  uid := b.read32 (d + 4)
  gid := b.read32 (d + 8)
  ppid := b.read32 (d + 12)
  elapsedTicks := b.read32 (d + 16)
  cpuTotalTicks := b.read32 (d + 20)
  state := b.read (d + 24) 32
  size := b.read32 (d + 56)
  name := b.read (d + 60) 32
  priority := b.read32 (d + 92)

/-- The memory after a store. -/
def Store.apply (mem : UInt32 → UInt8) (x : Store) : UInt32 → UInt8 := fun a =>
  if (a - x.addr).toNat < x.bytes.length then x.bytes.getD (a - x.addr).toNat 0 else mem a

/-- The memory from an address on. -/
def memFrom (mem : UInt32 → UInt8) (u : UInt32) : Bytes (2 ^ 32) := fun d =>
  mem (u + UInt32.ofNat d.val)

/-- The field, read as a C string, is the text. -/
def ReadsAs (field text : List UInt8) : Prop := 0 ∉ text ∧ text ++ [0] <+: field

instance (field text : List UInt8) : Decidable (ReadsAs field text) :=
  inferInstanceAs (Decidable (_ ∧ _))

/-- The bytes of the name of a state. -/
def stateBytes (s : ProcState) : List UInt8 := (stateText s).toUTF8.toList

/-- The entry describes the process in a slot, whose name is the text. -/
structure Describes (t : PTable) (p : Slot) (text : List UInt8) (e : Uproc) : Prop where
  pid : e.pid = (t.proc p).pid
  uid : e.uid = (t.proc p).uid
  gid : e.gid = (t.proc p).gid
  ppid : e.ppid = match (t.proc p).parent with
    | some parent => (t.proc parent).pid
    | none => (t.proc p).pid
  priority : e.priority = (t.proc p).priority
  size : e.size = (t.proc p).sz
  elapsedTicks : e.elapsedTicks = t.ticks - (t.proc p).startTicks
  cpuTotalTicks : e.cpuTotalTicks = (t.proc p).cpuTicksTotal
  name : ReadsAs e.name text
  state : ReadsAs e.state (stateBytes (t.proc p).state)

/-! ## Stores as writes to an array -/

/-- The fields that `copyactiveprocs` writes, with their offsets. -/
def uprocFields (t : PTable) (name : Slot → List UInt8) (p : Slot) : List (Nat × List UInt8) :=
  let q := t.proc p
  [(0, leBytes 4 q.pid.toNat), (4, leBytes 4 q.uid.toNat), (8, leBytes 4 q.gid.toNat),
    (12, leBytes 4 (match q.parent with
      | some parent => (t.proc parent).pid
      | none => q.pid).toNat),
    (92, leBytes 4 q.priority.toNat), (56, leBytes 4 q.sz.toNat),
    (16, leBytes 4 (t.ticks - q.startTicks).toNat), (20, leBytes 4 q.cpuTicksTotal.toNat),
    (60, strncpy 17 (name p)), (24, strncpy 5 (stateBytes q.state))]

/-- A write further on. -/
def shift (d : Nat) (x : Nat × List UInt8) : Nat × List UInt8 := (d + x.1, x.2)

/-- The writes for an array of entries. -/
def arrayFields (t : PTable) (name : Slot → List UInt8) : List Slot → List (Nat × List UInt8)
  | [] => []
  | p :: ps => uprocFields t name p ++ (arrayFields t name ps).map (shift sizeofUproc)

/-- The store of a write from `u` on. -/
def storeAt (u : UInt32) (x : Nat × List UInt8) : Store := ⟨u + UInt32.ofNat x.1, x.2⟩

section
variable {t : PTable} {name : Slot → List UInt8} {u max : UInt32} {mem : UInt32 → UInt8}

theorem copyproc_eq (p : Slot) : copyproc t name p u = (uprocFields t name p).map (storeAt u) := rfl

theorem storeAt_shift (x : Nat × List UInt8) :
    storeAt u (shift sizeofUproc x) = storeAt (u + UInt32.ofNat sizeofUproc) x := by
  rw [storeAt, storeAt, shift, UInt32.ofNat_add, UInt32.add_assoc]

/-- The loop stores the entries of the first active processes. -/
theorem copyactiveprocsLoop_stores : ∀ (ps : List Slot) (active : Nat) (u : UInt32), active ≤ max.toNat →
    (copyactiveprocsLoop t name max ps active u).1 = (arrayFields t name
      ((ps.filter fun p => Active (t.proc p)).take (max.toNat - active))).map (storeAt u)
  | [], active, u, _ => by simp [copyactiveprocsLoop, arrayFields]
  | p :: ps, active, u, hle => by
    have hlt := ofNat_lt_iff hle
    rw [copyactiveprocsLoop]
    split
    · next h =>
      have hmax := hlt.1 h
      split
      · next hact =>
        have ih := copyactiveprocsLoop_stores ps (active + 1) (u + UInt32.ofNat sizeofUproc) hmax
        rw [filter_cons_of_pos (by simpa using hact),
          show max.toNat - active = max.toNat - (active + 1) + 1 by omega, take_succ_cons,
          arrayFields, map_append, map_map, ← copyproc_eq]
        dsimp only
        rw [ih]
        congr 1
        exact map_congr_left fun x _ => (storeAt_shift x).symm
      · next hact =>
        rw [filter_cons_of_neg (by simpa using hact)]
        exact copyactiveprocsLoop_stores ps active u hle
    · next h =>
      have hmax : max.toNat - active = 0 := by
        rw [hlt] at h
        omega
      simp [hmax, arrayFields]

/-- A store, seen from `u` on, is a write. -/
theorem memFrom_apply {x : Nat × List UInt8} (hx : x.1 + x.2.length ≤ 2 ^ 32) :
    memFrom ((storeAt u x).apply mem) u = (memFrom mem u).write x.1 x.2 := by
  funext d
  have hd := d.isLt
  have hoff : (UInt32.ofNat x.1).toNat = x.1 % 2 ^ 32 := rfl
  have hdn : (UInt32.ofNat d.val).toNat = d.val := UInt32.toNat_ofNat_of_lt' hd
  have hnat : (u + UInt32.ofNat d.val - (u + UInt32.ofNat x.1)).toNat =
      (2 ^ 32 - x.1 % 2 ^ 32 + d.val) % 2 ^ 32 := by
    rw [UInt32.toNat_sub, UInt32.toNat_add, UInt32.toNat_add, hoff, hdn]
    omega
  rw [memFrom, Store.apply, Bytes.write, storeAt]
  dsimp only
  rw [hnat]
  by_cases hin : x.1 ≤ d.val ∧ d.val < x.1 + x.2.length
  · rw [if_pos hin, if_pos (by omega)]
    congr 1
    omega
  · rw [if_neg hin, if_neg (by omega)]
    rfl

theorem memFrom_foldl {l : List (Nat × List UInt8)} (hl : ∀ x ∈ l, x.1 + x.2.length ≤ 2 ^ 32) :
    memFrom ((l.map (storeAt u)).foldl Store.apply mem) u = (memFrom mem u).writes l := by
  induction l generalizing mem with
  | nil => rfl
  | cons x l ih =>
    rw [forall_mem_cons] at hl
    rw [map_cons, foldl_cons, ih hl.2, memFrom_apply hl.1]
    rfl

theorem uprocFields_within {p : Slot} {x : Nat × List UInt8} (hx : x ∈ uprocFields t name p) :
    x.1 + x.2.length ≤ sizeofUproc := by
  simp only [uprocFields, mem_cons, not_mem_nil, or_false] at hx
  rcases hx with rfl | rfl | rfl | rfl | rfl | rfl | rfl | rfl | rfl | rfl <;>
    simp [sizeofUproc]

theorem uprocFields_pairwise (p : Slot) : (uprocFields t name p).Pairwise Bytes.Apart := by
  simp [uprocFields, Bytes.Apart]

theorem shift_shift (d e : Nat) (x : Nat × List UInt8) : shift d (shift e x) = shift (d + e) x := by
  rw [shift, shift, shift, Nat.add_assoc]

/-- The writes are those to the fields of the entries. -/
theorem mem_arrayFields {l : List Slot} {x : Nat × List UInt8} : x ∈ arrayFields t name l ↔
    ∃ i p, l[i]? = some p ∧ ∃ y ∈ uprocFields t name p, x = shift (sizeofUproc * i) y := by
  induction l generalizing x with
  | nil => simp [arrayFields]
  | cons p l ih =>
    rw [arrayFields, mem_append, mem_map]
    constructor
    · rintro (hx | ⟨x, hx, rfl⟩)
      · exact ⟨0, p, rfl, x, hx, by simp [shift]⟩
      · obtain ⟨i, q, hq, y, hy, rfl⟩ := ih.1 hx
        refine ⟨i + 1, q, hq, y, hy, ?_⟩
        rw [shift_shift, Nat.mul_succ, Nat.add_comm]
    · rintro ⟨i, q, hq, y, hy, rfl⟩
      cases i with
      | zero =>
        obtain rfl : p = q := Option.some.inj hq
        exact .inl (by simpa [shift] using hy)
      | succ i =>
        refine .inr ⟨shift (sizeofUproc * i) y, ih.2 ⟨i, q, hq, y, hy, rfl⟩, ?_⟩
        rw [shift_shift, Nat.mul_succ, Nat.add_comm]

theorem arrayFields_pairwise (l : List Slot) : (arrayFields t name l).Pairwise Bytes.Apart := by
  induction l with
  | nil => exact .nil
  | cons p l ih =>
    rw [arrayFields, pairwise_append, pairwise_map]
    refine ⟨uprocFields_pairwise p, ih.imp fun h => ?_, fun x hx y hy => ?_⟩
    · rw [Bytes.Apart] at h ⊢
      simp only [shift]
      omega
    · obtain ⟨y, -, rfl⟩ := mem_map.1 hy
      have := uprocFields_within hx
      refine .inl ?_
      simp only [shift]
      omega

theorem arrayFields_within {l : List Slot} {x : Nat × List UInt8} (hx : x ∈ arrayFields t name l) :
    x.1 + x.2.length ≤ sizeofUproc * l.length := by
  obtain ⟨i, p, hp, y, hy, rfl⟩ := mem_arrayFields.1 hx
  have hi : i + 1 ≤ l.length := (List.getElem?_eq_some_iff.1 hp).1
  have := uprocFields_within hy
  have := Nat.mul_le_mul_left sizeofUproc hi
  rw [Nat.mul_succ] at this
  simp only [shift]
  omega

/-- Each field of each entry holds what was stored. -/
theorem read_arrayFields {n : Nat} {b : Bytes n} {l : List Slot} (hl : sizeofUproc * l.length ≤ n) {i : Nat}
    {p : Slot} (hp : l[i]? = some p) {y : Nat × List UInt8} (hy : y ∈ uprocFields t name p) :
    (b.writes (arrayFields t name l)).read (sizeofUproc * i + y.1) y.2.length = y.2 :=
  Bytes.read_writes (arrayFields_pairwise l) (fun _ hx => (arrayFields_within hx).trans hl)
    (mem_arrayFields.2 ⟨i, p, hp, y, hy, rfl⟩)

/-- The rest of the fields `state` and `name` is not touched. -/
theorem read_rest {n : Nat} {b : Bytes n} {l : List Slot} (hl : sizeofUproc * l.length ≤ n) {i off w : Nat}
    (hi : i < l.length) (h : 29 ≤ off ∧ off + w ≤ 56 ∨ 77 ≤ off ∧ off + w ≤ 92) :
    (b.writes (arrayFields t name l)).read (sizeofUproc * i + off) w =
      b.read (sizeofUproc * i + off) w := by
  have hsize : sizeofUproc = 96 := rfl
  have hle := Nat.mul_le_mul_left sizeofUproc (Nat.succ_le_of_lt hi)
  rw [Nat.mul_succ] at hle
  have hr := @Bytes.read_writes_of_apart n b (sizeofUproc * i + off, List.replicate w 0)
    (arrayFields t name l) (by rw [length_replicate]; omega) fun x hx => ?_
  · rwa [length_replicate] at hr
  obtain ⟨j, p, -, y, hy, rfl⟩ := mem_arrayFields.1 hx
  have hin := uprocFields_within hy
  rw [Bytes.Apart, shift, length_replicate]
  dsimp only
  rcases Nat.lt_trichotomy j i with hj | rfl | hj
  · have := Nat.mul_le_mul_left sizeofUproc (Nat.succ_le_of_lt hj)
    rw [Nat.mul_succ] at this
    omega
  · simp only [uprocFields, mem_cons, not_mem_nil, or_false] at hy
    rcases hy with rfl | rfl | rfl | rfl | rfl | rfl | rfl | rfl | rfl | rfl <;>
      simp only [length_leBytes, length_strncpy] <;> omega
  · have := Nat.mul_le_mul_left sizeofUproc (Nat.succ_le_of_lt hj)
    rw [Nat.mul_succ] at this
    omega

end

/-! ## Strings -/

theorem strncpy_append {pre : List UInt8} (h : 0 ∉ pre) (n : Nat) (rest : List UInt8) :
    strncpy (pre.length + n) (pre ++ rest) = pre ++ strncpy n rest := by
  induction pre with
  | nil => rw [length_nil, Nat.zero_add, nil_append, nil_append]
  | cons b pre ih =>
    rw [mem_cons, not_or] at h
    rw [length_cons, Nat.add_right_comm, cons_append, strncpy, headD_cons,
      if_neg (Ne.symm h.1), tail_cons, ih h.2, cons_append]

/-- The text and its zero arrive if there is room for both. -/
theorem ReadsAs.strncpy {field text rest : List UInt8} {n : Nat} (h : ReadsAs field text)
    (hn : text.length < n) : ReadsAs (strncpy n field ++ rest) text := by
  obtain ⟨h0, tail, rfl⟩ := h
  refine ⟨h0, ?_⟩
  obtain ⟨k, rfl⟩ : ∃ k, n = text.length + (k + 1) := ⟨n - text.length - 1, by omega⟩
  rw [append_assoc, strncpy_append h0, append_assoc, prefix_append_right_inj,
    singleton_append, Fs.strncpy, headD_cons, if_pos rfl, replicate_succ, cons_append]
  exact prefix_iff_eq_append.2 rfl

/-- The name of a state has six characters. -/
theorem stateBytes_eq (s : ProcState) :
    ∃ pre last, stateBytes s = pre ++ [last] ∧ pre.length = 5 ∧ (0 : UInt8) ∉ pre ∧ last ≠ 0 := by
  refine ⟨(stateBytes s).take 5, (stateBytes s).getD 5 0, ?_⟩
  cases s <;> decide +kernel

/-- With five of the six characters copied, the last one and the zero have to be there already. -/
theorem readsAs_state_iff (s : ProcState) (rest : List UInt8) :
    ReadsAs (strncpy 5 (stateBytes s) ++ rest) (stateBytes s) ↔ (stateBytes s).drop 5 ++ [0] <+: rest := by
  obtain ⟨pre, last, hs, hlen, h0, hlast⟩ := stateBytes_eq s
  have hcopy := strncpy_append h0 0 [last]
  rw [hlen, strncpy, append_nil] at hcopy
  rw [hs, hcopy, ← hlen, drop_left, ReadsAs, append_assoc, prefix_append_right_inj]
  refine and_iff_right ?_
  simp [h0, hlast.symm]

/-! ## The entries -/

/-- The slots that `copyactiveprocs` may copy, in the order of the table. -/
def activeSlots (t : PTable) : List Slot := (finRange NPROC).filter fun p => Active (t.proc p)

/-- The user's memory after `copyactiveprocs`. -/
def afterCopy (t : PTable) (name : Slot → List UInt8) (max u : UInt32) (mem : UInt32 → UInt8) :
    UInt32 → UInt8 :=
  (copyactiveprocs t name max u).1.foldl Store.apply mem

section
variable {t : PTable} {name : Slot → List UInt8} {max u : UInt32} {mem : UInt32 → UInt8}

theorem length_activeSlots : (activeSlots t).length = activeCount t :=
  countP_eq_length_filter.symm

theorem length_activeSlots_le : (activeSlots t).length ≤ NPROC :=
  (length_filter_le ..).trans_eq length_finRange

/-- The array is smaller than the address space. -/
theorem array_le (t : PTable) (k : Nat) : sizeofUproc * ((activeSlots t).take k).length ≤ 2 ^ 32 := by
  have hlen : ((activeSlots t).take k).length ≤ 64 :=
    (length_take_le' ..).trans length_activeSlots_le
  exact (Nat.mul_le_mul_left sizeofUproc hlen).trans (by decide)

theorem memFrom_afterCopy : memFrom (afterCopy t name max u mem) u =
    (memFrom mem u).writes (arrayFields t name ((activeSlots t).take max.toNat)) := by
  rw [afterCopy, copyactiveprocs, copyactiveprocsLoop_stores _ 0 u (Nat.zero_le _), Nat.sub_zero]
  exact memFrom_foldl fun x hx => (arrayFields_within hx).trans (array_le t max.toNat)

/-- A number of an entry. -/
theorem read32_field {n : Nat} {b : Bytes n} {d : Nat} {v : UInt32}
    (h : b.read d (leBytes 4 v.toNat).length = leBytes 4 v.toNat) : b.read32 d = v := by
  rw [length_leBytes] at h
  rw [Bytes.read32, h, leNat_leBytes_of_lt v.toNat_lt, UInt32.ofNat_toNat]

/-- An entry describes its process if the state's name is completed by what was there before. -/
theorem describes_iff {n i : Nat} {b : Bytes n} {l : List Slot} {p : Slot} {text : List UInt8}
    (hl : sizeofUproc * l.length ≤ n) (hp : l[i]? = some p) (htext : ReadsAs ((name p).take 16) text) :
    Describes t p text (uprocAt (b.writes (arrayFields t name l)) (sizeofUproc * i)) ↔
      (stateBytes (t.proc p).state).drop 5 ++ [0] <+: (uprocAt b (sizeofUproc * i)).state.drop 5 := by
  have hi : i < l.length := (List.getElem?_eq_some_iff.1 hp).1
  have hfield {y : Nat × List UInt8} (hy : y ∈ uprocFields t name p) :=
    @read_arrayFields t name _ b l hl i p hp y hy
  have hword {off : Nat} {v : UInt32} (hy : (off, leBytes 4 v.toNat) ∈ uprocFields t name p) :
      (b.writes (arrayFields t name l)).read32 (sizeofUproc * i + off) = v := read32_field (hfield hy)
  have hstate : (b.writes (arrayFields t name l)).read (sizeofUproc * i + 24) 32 =
      strncpy 5 (stateBytes (t.proc p).state) ++ b.read (sizeofUproc * i + 29) 27 := by
    have h5 := hfield (y := (24, strncpy 5 (stateBytes (t.proc p).state))) (by simp [uprocFields])
    rw [length_strncpy] at h5
    rw [show 32 = 5 + 27 from rfl, Bytes.read_add, h5, Nat.add_assoc, read_rest hl hi (.inl (by decide))]
  have hname : (b.writes (arrayFields t name l)).read (sizeofUproc * i + 60) 32 =
      strncpy 17 (name p) ++ b.read (sizeofUproc * i + 77) 15 := by
    have h17 := hfield (y := (60, strncpy 17 (name p))) (by simp [uprocFields])
    rw [length_strncpy] at h17
    rw [show 32 = 17 + 15 from rfl, Bytes.read_add, h17, Nat.add_assoc, read_rest hl hi (.inr (by decide))]
  have hdrop : (uprocAt b (sizeofUproc * i)).state.drop 5 = b.read (sizeofUproc * i + 29) 27 := by
    rw [uprocAt]
    rw [show 32 = 5 + 27 from rfl, Bytes.read_add, drop_left' (Bytes.length_read ..), Nat.add_assoc]
  have htext' : ReadsAs (name p) text := ⟨htext.1, htext.2.trans (List.take_prefix ..)⟩
  have hlen : text.length < 17 := by
    have := htext.2.length_le
    simp only [length_append, length_singleton, length_take] at this
    omega
  rw [hdrop, ← readsAs_state_iff, ← hstate]
  refine ⟨fun h => h.state, fun h => ⟨?_, hword (by simp [uprocFields]), hword (by simp [uprocFields]),
    hword (by simp [uprocFields]), hword (by simp [uprocFields]), hword (by simp [uprocFields]),
    hword (by simp [uprocFields]), hword (by simp [uprocFields]), ?_, h⟩⟩
  · show (b.writes (arrayFields t name l)).read32 (sizeofUproc * i + 0) = _
    exact hword (by simp [uprocFields])
  · rw [uprocAt]
    rw [hname]
    exact htext'.strncpy hlen

/-- `copyactiveprocs` copies the active processes in the order of the table, up to `max`. The entries
describe them exactly if, for each of them, the caller's memory happened to hold the sixth character of
the state's name and a zero where they belong. -/
theorem copyactiveprocs_describes_iff (t : PTable) (name text : Slot → List UInt8)
    (htext : ∀ p, Active (t.proc p) → ReadsAs ((name p).take 16) (text p)) (mem : UInt32 → UInt8)
    (max u : UInt32) :
    (copyactiveprocs t name max u).2 = min max.toNat (activeSlots t).length ∧
    ((∀ i p, i < max.toNat → (activeSlots t)[i]? = some p → Describes t p (text p)
        (uprocAt (memFrom (afterCopy t name max u mem) u) (sizeofUproc * i))) ↔
      ∀ i p, i < max.toNat → (activeSlots t)[i]? = some p →
        (stateBytes (t.proc p).state).drop 5 ++ [0] <+:
          (uprocAt (memFrom mem u) (sizeofUproc * i)).state.drop 5) := by
  refine ⟨?_, forall_congr' fun i => forall_congr' fun p => forall_congr' fun hi => forall_congr' fun hp => ?_⟩
  · have hn := (@copyactiveprocsLoop_fills t name max (finRange NPROC) 0 u (Nat.zero_le _)).1
    rw [Nat.zero_add] at hn
    rw [copyactiveprocs, hn, length_activeSlots, Nat.min_comm]
    rfl
  · have hact : Active (t.proc p) := by
      have hmem := mem_of_getElem? hp
      rw [activeSlots, mem_filter] at hmem
      simpa using hmem.2
    have hp' : ((activeSlots t).take max.toNat)[i]? = some p := by
      rw [getElem?_take_of_lt hi, hp]
    rw [memFrom_afterCopy]
    exact describes_iff (array_le t max.toNat) hp' (htext p hact)

end

/-- The name `init` in a field of sixteen bytes. -/
def initName : List UInt8 := [105, 110, 105, 116, 0, 0, 0, 0, 0, 0, 0, 0, 0, 0, 0, 0]

/-- In memory that holds zeros the entries do not describe their processes. -/
theorem copyactiveprocs_describes_iff_two :
    (∀ p, Active (twoProcs.proc p) → ReadsAs (initName.take 16) [105, 110, 105, 116]) ∧
    ¬ ∀ i p, i < (2 : UInt32).toNat → (activeSlots twoProcs)[i]? = some p →
      Describes twoProcs p [105, 110, 105, 116]
        (uprocAt (memFrom (afterCopy twoProcs (fun _ => initName) 2 4000 fun _ => 0) 4000)
          (sizeofUproc * i)) := by
  have htext : ReadsAs (initName.take 16) [105, 110, 105, 116] := by decide
  refine ⟨fun _ _ => htext, fun h => ?_⟩
  have h' := (copyactiveprocs_describes_iff twoProcs (fun _ => initName) (fun _ => [105, 110, 105, 116])
    (fun _ _ => htext) (fun _ => 0) 2 4000).2.1 h
  exact absurd (h' 0 ⟨0, by decide⟩ (by decide) (by decide +kernel)) (by decide +kernel)

/-- The state of a running process is reported with a blank too few. -/
theorem copyactiveprocs_state_cut :
    (activeSlots twoProcs)[0]? = some ⟨0, by decide⟩ ∧ stateBytes .running = [114, 117, 110, 32, 32, 32] ∧
    ReadsAs (uprocAt (memFrom (afterCopy twoProcs (fun _ => initName) 2 4000 fun _ => 0) 4000) 0).state
      [114, 117, 110, 32, 32] ∧
    ¬ ReadsAs (uprocAt (memFrom (afterCopy twoProcs (fun _ => initName) 2 4000 fun _ => 0) 4000) 0).state
      (stateBytes .running) := by
  refine ⟨by decide +kernel, by decide +kernel, by decide +kernel, by decide +kernel⟩

end TronBoss.Syscall
