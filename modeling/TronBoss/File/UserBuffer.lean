import TronBoss.Log.Log
import TronBoss.Fs.FileSpec
import TronBoss.Fs.Sysfile
import TronBoss.File.Pipe
import TronBoss.Vm.Mmu

/-!
# The user bytes that `sys_read` and `sys_write` touch

`sys_read` and `sys_write` from their argument checks down to the loops that copy from and to the
memory of the process, with the addresses of the bytes they store or load. A call that may sleep is
given what it finds each time it has the lock (its looks at the pipe or at the console input, with
`proc->killed`); a call that runs out of looks is still asleep.
-/

namespace TronBoss.File

open Lib Fs
open Vm (KERNBASE)

/-- What a call has done: its result, if it has one, and the addresses of the user bytes that it has
stored or loaded. -/
structure Touch where
  ret : Except Stop Int32
  bytes : List UInt32

/-- A call that returns without touching the memory. -/
def Touch.none (ret : Int32) : Touch := ⟨.ok ret, []⟩

/-- A call that sleeps. -/
def Touch.asleep : Touch := ⟨.error .disabled, []⟩

/-- The addresses of `k` bytes from `addr` on. -/
def span (addr : UInt32) (k : Nat) : List UInt32 :=
  (List.range k).map fun j => addr + UInt32.ofNat j

/-! ## Pipes -/

def piperead (addr : UInt32) (n : Int32) : List (Pipe × Bool) → Touch
  | [] => .asleep
  | (p, killed) :: looks =>
    if p.empty ∧ p.writeopen then
      if killed then .none (-1) else piperead addr n looks
    else
      let (xs, _) := pipereadCopy n.toInt.toNat p
      ⟨.ok (.ofNat xs.length), span addr xs.length⟩

/-- The loop of `pipewrite` for the remaining number of bytes until the pipe is full, with the
addresses it loads and the number of bytes that remain. -/
def pipewriteFill (mem : UInt32 → UInt8) : Nat → UInt32 → Pipe → List UInt32 × Nat × Pipe
  | 0, _, p => ([], 0, p)
  | left + 1, addr, p =>
    if p.full then ([], left + 1, p)
    else
      let (as, left, p) := pipewriteFill mem left (addr + 1) (p.put (mem addr))
      (addr :: as, left, p)

/-- `pipewrite` from the address `addr` on, with `left` of its `n` bytes to go. -/
def pipewrite (mem : UInt32 → UInt8) (n : Int32) : Nat → UInt32 → List (Pipe × Bool) → Touch
  | _, _, [] => .asleep
  | left, addr, (p, killed) :: looks =>
    let (as, left, p) := pipewriteFill mem left addr p
    if left = 0 then ⟨.ok n, as⟩
    else if p.readopen = false ∨ killed then ⟨.ok (-1), as⟩
    else
      let r := pipewrite mem n left (addr + UInt32.ofNat as.length) looks
      ⟨r.ret, as ++ r.bytes⟩

/-! ## The console -/

/-- The loop of `consoleread` until there is no input, with the addresses it stores to, what is left
of `n`, and whether the loop is left. -/
def consolereadFill (target : UInt32) : Nat → Int32 → UInt32 → Input →
    List UInt32 × Int32 × Bool × Input
  | 0, n, _, b => ([], n, true, b)
  | left + 1, n, dst, b =>
    if b.r = b.w then ([], n, false, b)
    else
      match consolereadTurn n target b with
      | (.eof, b) => ([], n, true, b)
      | (.line _, b) => ([dst], n - 1, true, b)
      | (.more _, b) =>
        let (as, n, done, b) := consolereadFill target left (n - 1) (dst + 1) b
        (dst :: as, n, done, b)

def consoleread (target : UInt32) : Int32 → UInt32 → List (Input × Bool) → Touch
  | _, _, [] => .asleep
  | n, dst, (b, killed) :: looks =>
    let (as, n, done, _) := consolereadFill target n.toInt.toNat n dst b
    if done then ⟨.ok (target - n.toUInt32).toInt32, as⟩
    else if killed then ⟨.ok (-1), as⟩
    else
      let r := consoleread target n (dst + UInt32.ofNat as.length) looks
      ⟨r.ret, as ++ r.bytes⟩

def consolewrite (buf : UInt32) (n : Int32) : Touch := ⟨.ok n, span buf n.toInt.toNat⟩

/-! ## Inodes -/

/-- The loop of `readi` and `writei`, for the remaining number of bytes: the user bytes of its calls
of `memmove`. -/
def moves : Nat → UInt32 → UInt32 → Nat → List UInt32
  | 0, _, _, _ => []
  | _ + 1, _, _, 0 => []
  | k + 1, addr, off, left@(_ + 1) =>
    let m := min left (BSIZE - off.toNat % BSIZE)
    span addr m ++ moves k (addr + UInt32.ofNat m) (off + UInt32.ofNat m) (left - m)

/-- `readi`, with the looks at the console. -/
def readi (looks : List (Input × Bool)) (ip : Inode) (dst off n : UInt32) : Touch :=
  if ip.type = T_DEV then
    if ip.major = CONSOLE then consoleread n n.toInt32 dst looks else .none (-1)
  else if off > ip.size ∨ off + n < off then .none (-1)
  else
    let n := if off + n > ip.size then ip.size - off else n
    ⟨.ok n.toInt32, moves n.toNat dst off n.toNat⟩

/-- `writei`, with the inode it leaves. -/
def writei (ip : Inode) (src off n : UInt32) : Touch × Inode :=
  if ip.type = T_DEV then
    if ip.major = CONSOLE then (consolewrite src n.toInt32, ip) else (.none (-1), ip)
  else if off > ip.size ∨ off + n < off then (.none (-1), ip)
  else if off + n > UInt32.ofNat (MAXFILE * BSIZE) then (.none (-1), ip)
  else
    (⟨.ok n.toInt32, moves n.toNat src off n.toNat⟩,
      if n > 0 ∧ off + n > ip.size then { ip with size := off + n } else ip)

/-! ## Files -/

/-- The types of `struct file`. -/
inductive FdType where
  | none
  | pipe
  | inode
  deriving DecidableEq, Repr

/-- An open file, with what the call finds behind it. -/
structure OpenFile where
  type : FdType
  readable : Bool
  writable : Bool
  off : UInt32
  ip : Inode
  pipe : List (Pipe × Bool)
  input : List (Input × Bool)

/-- `fileread`, with the offset it leaves. -/
def fileread (f : OpenFile) (addr : UInt32) (n : Int32) : Touch × UInt32 :=
  if f.readable = false then (.none (-1), f.off)
  else
    match f.type with
    | .pipe => (piperead addr n f.pipe, f.off)
    | .inode =>
      let t := readi f.input f.ip addr f.off n.toUInt32
      match t.ret with
      | .ok r => (t, if 0 < r then f.off + r.toUInt32 else f.off)
      | .error _ => (t, f.off)
    | .none => (⟨.error (.panic "fileread"), []⟩, f.off)

/-- `max` of `filewrite`. -/
def filewriteMax : Nat := (LOGSIZE - 1 - 1 - 2) / 2 * 512

/-- The loop of `filewrite` for the remaining number of bytes. -/
def filewriteLoop (n : Int32) : Nat → Inode → UInt32 → UInt32 → Nat → Touch × UInt32
  | _, _, off, _, 0 => (.none n, off)
  | 0, _, off, _, _ + 1 => (⟨.error .diverge, []⟩, off)
  | k + 1, ip, off, addr, left@(_ + 1) =>
    let n1 := min left filewriteMax
    let (t, ip) := writei ip addr off (UInt32.ofNat n1)
    match t.ret with
    | .error e => (⟨.error e, t.bytes⟩, off)
    | .ok r =>
      let off := if 0 < r then off + r.toUInt32 else off
      if r < 0 then (⟨.ok (-1), t.bytes⟩, off)
      else if r ≠ Int32.ofNat n1 then (⟨.error (.panic "short filewrite"), t.bytes⟩, off)
      else
        let (t', off) := filewriteLoop n k ip off (addr + UInt32.ofNat n1) (left - n1)
        (⟨t'.ret, t.bytes ++ t'.bytes⟩, off)

/-- `filewrite`, with the offset it leaves. -/
def filewrite (mem : UInt32 → UInt8) (f : OpenFile) (addr : UInt32) (n : Int32) : Touch × UInt32 :=
  if f.writable = false then (.none (-1), f.off)
  else
    match f.type with
    | .pipe => (pipewrite mem n n.toInt.toNat addr f.pipe, f.off)
    | .inode =>
      -- with a negative `n` the loop is left at once, with `i != n`
      if n < 0 then (.none (-1), f.off)
      else filewriteLoop n n.toInt.toNat f.ip f.off addr n.toInt.toNat
    | .none => (⟨.error (.panic "filewrite"), []⟩, f.off)

/-! ## The system calls -/

/-- The file of `argfd`, if the argument passes its checks. -/
def argfd (ofile : Fin NOFILE → Option OpenFile) (fd : Int32) : Option OpenFile :=
  if h : 0 ≤ fd.toInt ∧ fd.toInt.toNat < NOFILE then ofile ⟨fd.toInt.toNat, h.2⟩ else none

/-- The check of `argptr`, in a process of size `sz`. -/
def argptr (sz i : UInt32) (size : Int32) : Bool :=
  !(i ≥ sz || i + size.toUInt32 > sz)

def sysRead (sz : UInt32) (ofile : Fin NOFILE → Option OpenFile) (fd : Int32) (p : UInt32)
    (n : Int32) : Touch :=
  match argfd ofile fd with
  | none => .none (-1)
  | some f => if argptr sz p n then (fileread f p n).1 else .none (-1)

def sysWrite (mem : UInt32 → UInt8) (sz : UInt32) (ofile : Fin NOFILE → Option OpenFile)
    (fd : Int32) (p : UInt32) (n : Int32) : Touch :=
  match argfd ofile fd with
  | none => .none (-1)
  | some f => if argptr sz p n then (filewrite mem f p n).1 else .none (-1)

/-! ## Every loop touches the bytes of its buffer in order -/

theorem span_append (addr : UInt32) (j k : Nat) :
    span addr j ++ span (addr + UInt32.ofNat j) k = span addr (j + k) := by
  rw [span, span, span, List.range_add, List.map_append, List.map_map]
  congr 1
  refine List.map_congr_left fun i _ => ?_
  rw [Function.comp_apply, UInt32.ofNat_add, UInt32.add_assoc]

@[simp] theorem span_zero (addr : UInt32) : span addr 0 = [] := rfl

@[simp] theorem length_span (addr : UInt32) (k : Nat) : (span addr k).length = k := by simp [span]

theorem span_succ (addr : UInt32) (k : Nat) : span addr (k + 1) = addr :: span (addr + 1) k := by
  rw [Nat.add_comm, ← span_append]
  simp [span]

/-- The list is the first bytes of a buffer of `k` bytes. -/
def Leads (bytes : List UInt32) (addr : UInt32) (k : Nat) : Prop :=
  ∃ j ≤ k, bytes = span addr j

theorem Leads.nil (addr : UInt32) (k : Nat) : Leads [] addr k := ⟨0, Nat.zero_le k, rfl⟩

theorem Leads.mono {bytes : List UInt32} {addr : UInt32} {j k : Nat} (h : Leads bytes addr j)
    (hk : j ≤ k) : Leads bytes addr k := by
  obtain ⟨i, hi, rfl⟩ := h
  exact ⟨i, hi.trans hk, rfl⟩

theorem Leads.append {bytes : List UInt32} {addr : UInt32} {j k : Nat}
    (h : Leads bytes (addr + UInt32.ofNat j) k) : Leads (span addr j ++ bytes) addr (j + k) := by
  obtain ⟨i, hi, rfl⟩ := h
  exact ⟨j + i, by omega, span_append addr j i⟩

theorem length_pipereadCopy (n : Nat) (p : Pipe) : (pipereadCopy n p).1.length ≤ n := by
  induction n generalizing p with
  | zero => exact Nat.zero_le 0
  | succ n ih =>
    rw [pipereadCopy]
    split
    · exact Nat.zero_le _
    · exact Nat.succ_le_succ (ih _)

theorem piperead_leads (addr : UInt32) (n : Int32) (looks : List (Pipe × Bool)) :
    Leads (piperead addr n looks).bytes addr n.toInt.toNat := by
  induction looks with
  | nil => exact .nil ..
  | cons look looks ih =>
    rw [piperead]
    split
    · split
      · exact .nil ..
      · exact ih
    · exact ⟨_, length_pipereadCopy .., rfl⟩

/-- What is written until the pipe is full is the first part of the bytes. -/
theorem pipewriteFill_spec (mem : UInt32 → UInt8) (left : Nat) (addr : UInt32) (p : Pipe) :
    ∃ j, (pipewriteFill mem left addr p).1 = span addr j ∧
      j + (pipewriteFill mem left addr p).2.1 = left := by
  induction left generalizing addr p with
  | zero => exact ⟨0, rfl, rfl⟩
  | succ left ih =>
    rw [pipewriteFill]
    split
    · exact ⟨0, rfl, Nat.zero_add _⟩
    · obtain ⟨j, hj, hl⟩ := ih (addr + 1) (p.put (mem addr))
      refine ⟨j + 1, ?_, ?_⟩
      · rw [span_succ, ← hj]
      · rw [Nat.add_right_comm, hl]

/-- `pipewrite` reads the bytes of the caller from the first one on. -/
theorem pipewrite_leads (mem : UInt32 → UInt8) (n : Int32) (left : Nat) (addr : UInt32)
    (looks : List (Pipe × Bool)) : Leads (pipewrite mem n left addr looks).bytes addr left := by
  induction looks generalizing left addr with
  | nil => exact .nil ..
  | cons look looks ih =>
    obtain ⟨p, killed⟩ := look
    obtain ⟨j, hj, hl⟩ := pipewriteFill_spec mem left addr p
    rw [pipewrite]
    dsimp only
    rw [hj, length_span]
    split
    · exact ⟨j, by omega, rfl⟩
    · split
      · exact ⟨j, by omega, rfl⟩
      · exact (ih _ _).append.mono (Nat.le_of_eq hl)

/-- The inner loop of `consoleread` stores bytes from `dst` on and counts them. -/
theorem consolereadFill_spec (target : UInt32) {left : Nat} {n : Int32} (hn : n.toInt = left)
    (dst : UInt32) (b : Input) :
    ∃ j, (consolereadFill target left n dst b).1 = span dst j ∧ j ≤ left ∧
      (consolereadFill target left n dst b).2.1.toInt = (left - j : Nat) := by
  have hpred : ∀ {left : Nat} {n : Int32}, n.toInt = (left + 1 : Nat) → (n - 1).toInt = left := by
    intro left n hn
    have := n.toInt_lt
    rw [Int32.toInt_sub, hn, show (1 : Int32).toInt = 1 from rfl, Int.bmod_eq_of_le] <;> omega
  induction left generalizing n dst b with
  | zero => exact ⟨0, rfl, Nat.le_refl 0, hn⟩
  | succ left ih =>
    rw [consolereadFill]
    split
    · exact ⟨0, rfl, Nat.zero_le _, hn⟩
    · split
      · exact ⟨0, rfl, Nat.zero_le _, hn⟩
      · exact ⟨1, by rw [span_succ, span_zero], by omega, hpred hn⟩
      · next b' _ =>
        obtain ⟨j, hj, hl, hr⟩ := ih (hpred hn) (dst + 1) b'
        refine ⟨j + 1, ?_, by omega, ?_⟩
        · rw [span_succ, ← hj]
        · rw [Nat.add_sub_add_right]
          exact hr

/-- `consoleread` touches the first bytes of the buffer. -/
theorem consoleread_leads (target : UInt32) (n : Int32) (dst : UInt32)
    (looks : List (Input × Bool)) :
    Leads (consoleread target n dst looks).bytes dst n.toInt.toNat := by
  induction looks generalizing n dst with
  | nil => exact .nil ..
  | cons look looks ih =>
    obtain ⟨b, killed⟩ := look
    rw [consoleread]
    dsimp only
    rcases Int.lt_or_le n.toInt 0 with hneg | hpos
    · rw [Int.toNat_of_nonpos (by omega), consolereadFill]
      exact .nil ..
    · obtain ⟨j, hj, hl, hr⟩ := consolereadFill_spec target (Int.toNat_of_nonneg hpos).symm dst b
      rw [hj, length_span]
      split
      · exact ⟨j, hl, rfl⟩
      · split
        · exact ⟨j, hl, rfl⟩
        · have hrest := ih (consolereadFill target n.toInt.toNat n dst b).2.1
            (dst + UInt32.ofNat j)
          rw [hr, Int.toNat_natCast] at hrest
          exact hrest.append.mono (by omega)

/-- The chunks of `readi` and `writei` lie one after the other. -/
theorem moves_eq_span {k : Nat} (addr off : UInt32) {left : Nat} (h : left ≤ k) :
    moves k addr off left = span addr left := by
  induction k generalizing addr off left with
  | zero =>
    rw [Nat.le_zero.1 h]
    rfl
  | succ k ih =>
    cases left with
    | zero => rfl
    | succ left =>
      have hm : 0 < BSIZE - off.toNat % BSIZE := Nat.sub_pos_of_lt (Nat.mod_lt _ (by decide))
      rw [moves, ih _ _ (by omega), span_append]
      congr 1
      omega

theorem toInt_toInt32 {n : UInt32} (h : n.toNat < 2 ^ 31) : n.toInt32.toInt = n.toNat := by
  have hi : n.toInt32.toInt = n.toBitVec.toInt := rfl
  have hn : n.toNat = n.toBitVec.toNat := rfl
  rw [hi, hn, BitVec.toInt_eq_toNat_cond, if_pos (by omega)]

/-- A `writei` that does not fail loads all its bytes. -/
theorem writei_spec (ip : Inode) (src off : UInt32) {n : UInt32} (hn : n.toNat < 2 ^ 31) :
    (writei ip src off n).1 = .none (-1) ∨
      (writei ip src off n).1 = ⟨.ok n.toInt32, span src n.toNat⟩ := by
  unfold writei
  split
  · split
    · refine .inr ?_
      rw [consolewrite, toInt_toInt32 hn, Int.toNat_natCast]
    · exact .inl rfl
  · split
    · exact .inl rfl
    · split
      · exact .inl rfl
      · refine .inr ?_
        rw [moves_eq_span src off (Nat.le_refl _)]

/-- The loop of `filewrite` touches the first bytes of the buffer. -/
theorem filewriteLoop_leads (n : Int32) {k : Nat} {ip : Inode} {off addr : UInt32} {left : Nat} :
    Leads (filewriteLoop n k ip off addr left).1.bytes addr left := by
  induction k generalizing ip off addr left with
  | zero => cases left <;> exact .nil ..
  | succ k ih =>
    cases left with
    | zero => exact .nil ..
    | succ left =>
      have hmax : filewriteMax = 6656 := rfl
      obtain ⟨m, hm⟩ : ∃ m, min (left + 1) filewriteMax = m := ⟨_, rfl⟩
      have hto : (UInt32.ofNat m).toNat = m := by
        rw [UInt32.toNat_ofNat', Nat.mod_eq_of_lt (by omega)]
      rw [filewriteLoop, hm]
      dsimp only
      rcases writei_spec ip addr off (n := UInt32.ofNat m) (by omega) with hw | hw
      · rw [hw]
        exact .nil ..
      · rw [hw, hto]
        dsimp only
        have hall : Leads (span addr m) addr (left + 1) := ⟨m, by omega, rfl⟩
        split
        · exact hall
        · split
          · exact hall
          · exact ih.append.mono (by omega)

theorem filewrite_leads (mem : UInt32 → UInt8) (f : OpenFile) (addr : UInt32) (n : Int32) :
    Leads (filewrite mem f addr n).1.bytes addr n.toInt.toNat := by
  unfold filewrite
  split
  · exact .nil ..
  · split
    · exact pipewrite_leads ..
    · split
      · exact .nil ..
      · exact filewriteLoop_leads n
    · exact .nil ..

/-- A `readi` that is not one of a device stores its bytes in order, cut at the end of the file. -/
theorem readi_bytes {looks : List (Input × Bool)} {ip : Inode} {dst off n : UInt32}
    (hdev : ip.type ≠ T_DEV) :
    (readi looks ip dst off n).bytes = if off > ip.size ∨ off + n < off then []
      else span dst (min n.toNat (ip.size.toNat - off.toNat)) := by
  unfold readi
  rw [if_neg hdev]
  split
  · rfl
  · next hok =>
    rw [not_or, UInt32.not_lt, UInt32.not_lt, UInt32.le_iff_toNat_le, UInt32.le_iff_toNat_le,
      UInt32.toNat_add] at hok
    dsimp only
    rw [moves_eq_span _ _ (Nat.le_refl _)]
    congr 1
    have := n.toNat_lt
    split
    · next hlt =>
      rw [GT.gt, UInt32.lt_iff_toNat_lt, UInt32.toNat_add] at hlt
      rw [UInt32.toNat_sub_of_le _ _ (UInt32.le_iff_toNat_le.2 hok.1)]
      omega
    · next hle =>
      rw [GT.gt, UInt32.lt_iff_toNat_lt, UInt32.toNat_add] at hle
      omega

/-- The memory that a read touches outside its buffer: the bytes that a file has beyond the offset,
when a negative length is taken for a large one. -/
def Overruns (f : OpenFile) (n : Int32) : Prop :=
  f.readable ∧ f.type = .inode ∧ f.ip.type ≠ T_DEV ∧ n < 0 ∧ f.off < f.ip.size ∧
    (f.off.toNat : Int) < -n.toInt

/-- `fileread` touches the first bytes of the buffer, unless it overruns. -/
theorem fileread_leads {f : OpenFile} {n : Int32} (h : ¬ Overruns f n) (addr : UInt32) :
    Leads (fileread f addr n).1.bytes addr n.toInt.toNat := by
  unfold fileread
  split
  · exact .nil ..
  · next hr =>
    split
    · exact piperead_leads ..
    · next ht =>
      have hb : Leads (readi f.input f.ip addr f.off n.toUInt32).bytes addr n.toInt.toNat := by
        rcases eq_or_ne f.ip.type T_DEV with hd | hd
        · unfold readi
          rw [if_pos hd]
          split
          · exact consoleread_leads ..
          · exact .nil ..
        · rw [readi_bytes hd]
          split
          · exact .nil ..
          · next hok =>
            refine ⟨_, ?_, rfl⟩
            rw [not_or, UInt32.not_lt, UInt32.not_lt, UInt32.le_iff_toNat_le,
              UInt32.le_iff_toNat_le, UInt32.toNat_add, toNat_toUInt32 n] at hok
            rcases Int.lt_or_le n.toInt 0 with hneg | hpos
            · have hno : ¬ (f.off.toNat < f.ip.size.toNat ∧ (f.off.toNat : Int) < -n.toInt) :=
                fun hx => h ⟨by simpa using hr, ht, hd, Int32.lt_iff_toInt_lt.2 hneg,
                  UInt32.lt_iff_toNat_lt.2 hx.1, hx.2⟩
              omega
            · rw [toNat_toUInt32]
              omega
      dsimp only
      split
      · exact hb
      · exact hb
    · exact .nil ..

/-- What the check of `argptr` says. -/
theorem argptr_iff {sz p : UInt32} {n : Int32} (hsz : sz < KERNBASE) (hp : argptr sz p n) :
    p.toNat < sz.toNat ∧ p.toNat + n.toInt.toNat ≤ sz.toNat := by
  unfold argptr at hp
  rw [Bool.not_eq_true', Bool.or_eq_false_iff, decide_eq_false_iff_not, decide_eq_false_iff_not,
    GE.ge, UInt32.not_le, GT.gt, UInt32.not_lt, UInt32.lt_iff_toNat_lt, UInt32.le_iff_toNat_le,
    UInt32.toNat_add, toNat_toUInt32 n] at hp
  have hk : sz.toNat < 2 ^ 31 := UInt32.lt_iff_toNat_lt.1 hsz
  have := n.toInt_lt
  omega

/-- The first bytes of the buffer are in the buffer. -/
theorem Leads.mem {bytes : List UInt32} {p a : UInt32} {k : Nat} (h : Leads bytes p k)
    (hk : p.toNat + k < 2 ^ 32) (ha : a ∈ bytes) : p.toNat ≤ a.toNat ∧ a.toNat < p.toNat + k := by
  obtain ⟨j, hj, rfl⟩ := h
  obtain ⟨i, hi, rfl⟩ := List.mem_map.1 ha
  rw [List.mem_range] at hi
  rw [UInt32.toNat_add, UInt32.toNat_ofNat']
  omega

/-- The calls that copy from or to a user buffer. -/
inductive BufferCall where
  | read
  | write
  deriving DecidableEq, Repr

/-- The call with its arguments, in a process of size `sz` with the memory `mem`. -/
def BufferCall.run (mem : UInt32 → UInt8) (sz : UInt32) (ofile : Fin NOFILE → Option OpenFile)
    (fd : Int32) (p : UInt32) (n : Int32) : BufferCall → Touch
  | .read => sysRead sz ofile fd p n
  | .write => sysWrite mem sz ofile fd p n

/-- A call whose arguments pass the checks stays in its buffer, and the buffer in the process, unless
it reads a file or a directory with a negative length, from an offset that is before the end and that
the length does not take below zero. -/
theorem user_buffer_contained_iff {mem : UInt32 → UInt8} {sz p : UInt32} {n fd : Int32}
    {ofile : Fin NOFILE → Option OpenFile} {f : OpenFile} (call : BufferCall)
    (hsz : sz < KERNBASE) (hf : argfd ofile fd = some f) (hp : argptr sz p n) :
    ((∀ a ∈ (call.run mem sz ofile fd p n).bytes,
        p.toNat ≤ a.toNat ∧ a.toNat < p.toNat + n.toInt.toNat) ∧
      p.toNat + n.toInt.toNat ≤ sz.toNat) ↔ ¬ (call = .read ∧ Overruns f n) := by
  obtain ⟨-, hin⟩ := argptr_iff hsz hp
  have hk : sz.toNat < 2 ^ 31 := UInt32.lt_iff_toNat_lt.1 hsz
  have hread : sysRead sz ofile fd p n = (fileread f p n).1 := by
    rw [sysRead, hf]
    exact if_pos hp
  have hwrite : sysWrite mem sz ofile fd p n = (filewrite mem f p n).1 := by
    rw [sysWrite, hf]
    exact if_pos hp
  constructor
  · rintro ⟨hall, -⟩ ⟨rfl, hr, ht, hd, hneg, hoff, hlen⟩
    rw [Int32.lt_iff_toInt_lt] at hneg
    rw [UInt32.lt_iff_toNat_lt] at hoff
    -- the first byte of the file is stored at `p`
    have hmem : p ∈ (fileread f p n).1.bytes := by
      have hb : p ∈ (readi f.input f.ip p f.off n.toUInt32).bytes := by
        have hlo := n.le_toInt
        have hpos : 0 < min n.toUInt32.toNat (f.ip.size.toNat - f.off.toNat) := by
          rw [toNat_toUInt32]
          change n.toInt < 0 at hneg
          omega
        rw [readi_bytes hd, if_neg]
        · obtain ⟨j, hj⟩ : ∃ j, min n.toUInt32.toNat (f.ip.size.toNat - f.off.toNat) = j + 1 :=
            ⟨_, (Nat.succ_pred_eq_of_pos hpos).symm⟩
          rw [hj, span_succ]
          exact List.mem_cons_self
        · change n.toInt < 0 at hneg
          rw [not_or, UInt32.not_lt, UInt32.not_lt, UInt32.le_iff_toNat_le,
            UInt32.le_iff_toNat_le, UInt32.toNat_add, toNat_toUInt32 n]
          omega
      unfold fileread
      rw [if_neg (by simp [hr]), ht]
      dsimp only
      split <;> exact hb
    rw [BufferCall.run, hread] at hall
    have := (hall p hmem).2
    change n.toInt < 0 at hneg
    omega
  · intro hno
    refine ⟨fun a ha => ?_, hin⟩
    cases call with
    | read =>
      rw [BufferCall.run, hread] at ha
      exact (fileread_leads (fun hx => hno ⟨rfl, hx⟩) p).mem (by omega) ha
    | write =>
      rw [BufferCall.run, hwrite] at ha
      exact (filewrite_leads mem f p n).mem (by omega) ha

/-- A file of ten bytes, opened for reading at its start. -/
def tenBytes : OpenFile where
  type := .inode
  readable := true
  writable := false
  off := 0
  ip := { Dinode.zero with type := T_FILE, size := 10, inum := 2, ref := 1, busy := false, valid := true }
  pipe := []
  input := []

/-- A read of four bytes. -/
theorem user_buffer_contained_iff_four :
    (∀ a ∈ (BufferCall.read.run (fun _ => 0) 4096 (fun _ => some tenBytes) 3 100 4).bytes,
      (100 : UInt32).toNat ≤ a.toNat ∧ a.toNat < (100 : UInt32).toNat + (4 : Int32).toInt.toNat) ∧
    (100 : UInt32).toNat + (4 : Int32).toInt.toNat ≤ (4096 : UInt32).toNat := by
  refine (user_buffer_contained_iff .read (by decide) (f := tenBytes) rfl (by decide)).2 ?_
  rintro ⟨-, -, -, -, hneg, -⟩
  exact absurd hneg (by decide)

/-- A read of -50 bytes to the address 100 passes the checks and stores the ten bytes of the file,
and none of them is in the buffer. -/
theorem user_buffer_overrun_tenBytes :
    argptr 4096 100 (-50) ∧
      (BufferCall.read.run (fun _ => 0) 4096 (fun _ => some tenBytes) 3 100 (-50)).bytes =
        [100, 101, 102, 103, 104, 105, 106, 107, 108, 109] ∧
      ¬ ∀ a ∈ (BufferCall.read.run (fun _ => 0) 4096 (fun _ => some tenBytes) 3 100 (-50)).bytes,
        (100 : UInt32).toNat ≤ a.toNat ∧
          a.toNat < (100 : UInt32).toNat + (-50 : Int32).toInt.toNat := by
  have hbytes : (BufferCall.read.run (fun _ => 0) 4096 (fun _ => some tenBytes) 3 100 (-50)).bytes =
      [100, 101, 102, 103, 104, 105, 106, 107, 108, 109] := by decide
  refine ⟨by decide, hbytes, fun h => ?_⟩
  have hfirst := (h 100 (by rw [hbytes]; exact List.mem_cons_self)).2
  exact absurd hfirst (by decide)

end TronBoss.File
