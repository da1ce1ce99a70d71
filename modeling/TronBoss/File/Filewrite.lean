import TronBoss.File.SharedOffset
import TronBoss.Fs.Structure

/-!
# `filewrite` to a regular file

The loop of `filewrite` cuts a write into chunks of at most `filewriteMax` bytes and makes each one a
transaction of its own. Two things are asked of it by a caller that is alone: that every transaction
stays within the blocks that `begin_op` reserves for it, and that the result says what was written.
-/

namespace TronBoss.File

open Lib Fs List

/-- A `struct file` of type `FD_INODE`. -/
structure FdInode where
  writable : Bool
  ip : Fin NINODE
  off : UInt32

/-- Where a call of `filewrite` is: `i`, the file, the number of blocks that each section between
`begin_op` and `end_op` has logged, and whether the last one has left the loop. -/
structure Progress where
  i : Nat
  file : FdInode
  sections : List Nat
  failed : Bool

/-- `begin_op` and `end_op` around a routine, by a process that is alone: the log is empty when the
section begins, and is committed when it ends. The result has the number of blocks in the log. -/
def transaction {α : Type} (m : FsM α) : FsM (α × Nat) := do
  modify State.commit
  let r ← m
  let s ← get
  modify State.commit
  return (r, s.log.length)

/-- The `n` bytes from `addr + i` on. -/
def bytesFrom (addr : Nat → UInt8) (i n : Nat) : List UInt8 := (List.range n).map fun j => addr (i + j)

/-- `n1` of `filewrite`. -/
def chunkSize (n : Int) (i : Nat) : Nat := min (n - i).toNat filewriteMax

/-- A turn of the loop of `filewrite`. -/
def Progress.turn (addr : Nat → UInt8) (n : Int) (p : Progress) : FsM Progress := do
  let n1 := chunkSize n p.i
  let (r, logged) ← transaction (writeLocked p.file.ip (bytesFrom addr p.i n1) p.file.off.toNat)
  let p : Progress := { p with
    file.off := if 0 < r then p.file.off + UInt32.ofNat r.toNat else p.file.off
    sections := p.sections ++ [logged] }
  if r < 0 then return { p with failed := true }
  else
    panicIf (r ≠ n1) "short filewrite"
    return { p with i := p.i + r.toNat }

/-- The first turns of the loop of `filewrite`. -/
def Progress.turns (addr : Nat → UInt8) (n : Int) : Nat → Progress → FsM Progress
  | 0, p => return p
  | k + 1, p => do
    if p.failed = true ∨ n ≤ p.i then return p
    else
      let p ← p.turn addr n
      turns addr n k p

/-- The start of the loop of `filewrite`. -/
def FdInode.start (f : FdInode) : Progress := ⟨0, f, [], false⟩

/-- `filewrite` up to the end of the `k`-th turn of its loop. -/
def FdInode.filewriteTurns (f : FdInode) (addr : Nat → UInt8) (n : Int) (k : Nat) : FsM Progress :=
  if f.writable = false then return f.start else f.start.turns addr n k

/-- `filewrite`, with the state of the loop at its end. Every turn that does not leave the loop writes
at least a byte. -/
def FdInode.filewrite (f : FdInode) (addr : Nat → UInt8) (n : Int) : FsM (Int × Progress) := do
  let p ← f.filewriteTurns addr n n.toNat
  if f.writable = false then return (-1, p)
  else return (if (p.i : Int) = n then n else -1, p)

/-! ## One section -/

section
variable {s s' : State} {e : Fin NINODE} {i : Nat} {v : Vnode}

theorem RegularFile.commit (h : RegularFile s e i v) : RegularFile s.commit e i v :=
  ⟨⟨h.inv.store, h.inv.inum, h.inv.unique, h.inv.nonneg, h.inv.valid⟩, h.ref, h.free, h.inum, h.view,
    h.regular⟩

theorem RegularFile.data_le (h : RegularFile s e i v) : v.data.length ≤ MAXFILE * BSIZE := by
  have ht : (s.store.node i).type ≠ 0 := State.node_type_ne_of_view (by rw [h.view]; simp)
  have hv : s.store.view i = some v := h.view
  rw [Store.view_of_type ht] at hv
  rw [← Option.some.inj hv]
  exact Store.length_data.trans_le (h.inv.store.size i ht)

theorem length_bytesFrom (addr : Nat → UInt8) (i n : Nat) : (bytesFrom addr i n).length = n := by
  simp [bytesFrom]

theorem bytesFrom_add (addr : Nat → UInt8) (i n m : Nat) :
    bytesFrom addr i n ++ bytesFrom addr (i + n) m = bytesFrom addr i (n + m) := by
  simp only [bytesFrom, range_add, map_append, map_map, Function.comp_def,
    Nat.add_assoc]

variable {p : Progress} {addr : Nat → UInt8} {n : Int}

/-- A turn writes a chunk and counts the blocks it logs, or leaves the loop. -/
theorem Progress.turn_spec (h : RegularFile s p.file.ip i v) (hlt : (p.i : Int) < n) :
    Sat (fun x => Accepts v.data.length p.file.off.toNat (chunkSize n p.i) ∧ OutOfBlocks s
        (growth (blocksFor v.data.length) (p.file.off.toNat + chunkSize n p.i)) x)
      (p.turn addr n) s fun p' s' =>
      Accepts v.data.length p.file.off.toNat (chunkSize n p.i) ∧
          RegularFile s' p.file.ip i { v with
            data := Fs.overlay v.data p.file.off.toNat (bytesFrom addr p.i (chunkSize n p.i)) } ∧
          s'.free + growth (blocksFor v.data.length) (p.file.off.toNat + chunkSize n p.i) =
            s.free ∧
          p' = { p with
            i := p.i + chunkSize n p.i
            file.off := p.file.off + UInt32.ofNat (chunkSize n p.i)
            sections := p.sections ++
              [writeiBlocks v.data.length p.file.off.toNat (chunkSize n p.i)] } ∨
        ¬ Accepts v.data.length p.file.off.toNat (chunkSize n p.i) ∧
          RegularFile s' p.file.ip i v ∧ s'.free = s.free ∧
          p' = { p with sections := p.sections ++ [0], failed := true } := by
  have hpos : 0 < chunkSize n p.i := by
    have : filewriteMax = 6656 := rfl
    unfold chunkSize
    omega
  have hlen := length_bytesFrom addr p.i (chunkSize n p.i)
  have hwrite := @writeLocked_exact s.commit p.file.ip i v
    (bytesFrom addr p.i (chunkSize n p.i)) p.file.off.toNat h.commit
  rw [hlen] at hwrite
  rw [turn]
  dsimp only
  rw [sat_bind, transaction, sat_modify_bind]
  refine Sat.bind hwrite fun r s1 hs1 => ?_
  rw [sat_get_bind, sat_modify_bind, sat_pure]
  rcases hs1 with ⟨hacc, rfl, hfile, X, hX, hspent⟩ | ⟨hacc, rfl, hfile, hspent⟩
  · have hlog : s1.log.length = _ := (hspent.length_log rfl).trans hX
    rw [if_neg (by omega), sat_panicIf_bind]
    refine ⟨fun hne => absurd rfl hne, fun _ => .inl ⟨hacc, hfile.commit, hspent.free, ?_⟩⟩
    rw [if_pos (by omega), Int.toNat_natCast, hlog]
  · have hlog : s1.log.length = 0 := (hspent.length_log rfl).trans (Set.ncard_empty _)
    rw [if_pos (by omega), sat_pure]
    refine .inr ⟨hacc, hfile.commit, hspent.free, ?_⟩
    rw [if_neg (by omega), hlog]

end

/-! ## The blocks of a section -/

theorem Progress.turns_of_failed {p : Progress} {addr : Nat → UInt8} {n : Int} (h : p.failed = true)
    (k : Nat) : p.turns addr n k = pure p := by
  cases k with
  | zero => rfl
  | succ k => rw [turns, if_pos (.inl h)]

theorem Progress.turns_of_le {p : Progress} {addr : Nat → UInt8} {n : Int} (h : n ≤ p.i)
    (k : Nat) : p.turns addr n k = pure p := by
  cases k with
  | zero => rfl
  | succ k => rw [turns, if_pos (.inr h)]

theorem FdInode.start_goes {f : FdInode} {n : Int} (hn : 0 < n) :
    ¬ (f.start.failed = true ∨ n ≤ f.start.i) := by
  simpa [start] using hn

theorem overlay_none (data : List UInt8) (off : Nat) (addr : Nat → UInt8) (i : Nat) :
    Fs.overlay data off (bytesFrom addr i 0) = data := by
  simp [Fs.overlay, bytesFrom]

/-- A chunk of the largest size logs thirteen data blocks or more. -/
theorem le_writeiBlocks {size off n : Nat} (hn : filewriteMax ≤ n) : 13 ≤ writeiBlocks size off n := by
  have hmax : filewriteMax = 6656 := rfl
  unfold writeiBlocks dataBlocks
  rw [if_neg (by omega)]
  simp only [blocksFor, BSIZE]
  omega

/-- No section that a call of `filewrite` completes logs more blocks than are reserved for it. -/
def FdInode.WithinReservation (f : FdInode) (addr : Nat → UInt8) (n : Int) (s : State) : Prop :=
  ∀ k p s', f.filewriteTurns addr n k s = .ok (p, s') → ∀ c ∈ p.sections, c ≤ MAXOPBLOCKS

section
variable {s : State} {f : FdInode} {i : Nat} {v : Vnode}

/-- The sections of the first turns of a call that has something to write. -/
theorem FdInode.turns_sections (h : RegularFile s f.ip i v) (addr : Nat → UInt8) {n : Int}
    (hn : 0 < n) {k : Nat} :
    Sat (fun _ => True) (f.start.turns addr n (k + 1)) s fun p _ =>
      ¬ Accepts v.data.length f.off.toNat (chunkSize n 0) ∧ p.sections = [0] ∨
      Accepts v.data.length f.off.toNat (chunkSize n 0) ∧
        growth (blocksFor v.data.length) (f.off.toNat + chunkSize n 0) ≤ s.free ∧
        (n ≤ filewriteMax → p.sections = [writeiBlocks v.data.length f.off.toNat n.toNat]) := by
  have hstart := @Progress.turn_spec s i v f.start addr n h (by simpa [start] using hn)
  rw [Progress.turns, if_neg (start_goes hn)]
  refine (hstart.mono (fun _ _ => trivial) fun _ _ => id).bind fun p1 s1 hs1 => ?_
  rcases hs1 with ⟨hacc, -, hfree, rfl⟩ | ⟨hacc, -, -, rfl⟩
  · have hge : growth (blocksFor v.data.length) (f.off.toNat + chunkSize n 0) ≤ s.free := by
      simp only [start] at hfree
      omega
    refine Sat.of_returns fun p s' hs' => .inr ⟨hacc, hge, fun hle => ?_⟩
    have hsize : chunkSize n 0 = n.toNat := by
      unfold chunkSize
      omega
    rw [Progress.turns_of_le (by simp only [start, hsize]; omega)] at hs'
    cases hs'
    simp [start, hsize]
  · rw [Progress.turns_of_failed rfl]
    exact .inl ⟨hacc, rfl⟩

/-- The first section, if `writei` takes the first chunk and there are enough free blocks. -/
theorem FdInode.first_section (h : RegularFile s f.ip i v) (addr : Nat → UInt8) {n : Int}
    (hw : f.writable = true) (hn : 0 < n)
    (hacc : Accepts v.data.length f.off.toNat (chunkSize n 0))
    (hfree : growth (blocksFor v.data.length) (f.off.toNat + chunkSize n 0) ≤ s.free) :
    ∃ p s', f.filewriteTurns addr n 1 s = .ok (p, s') ∧
      p.sections = [writeiBlocks v.data.length f.off.toNat (chunkSize n 0)] := by
  have hturn := @Progress.turn_spec s i v f.start addr n h (by simpa [start] using hn)
  obtain ⟨p, s', hrun, hp⟩ := (hturn.mono (fun x hx => absurd hfree (Nat.not_le.2 hx.2.2))
    fun _ _ => id).returns
  refine ⟨p, s', ?_, ?_⟩
  · rw [filewriteTurns, if_neg (by simp [hw]), Progress.turns,
      if_neg (start_goes hn)]
    show (f.start.turn addr n s >>= fun x => _) = _
    rw [hrun]
    rfl
  · rcases hp with ⟨-, -, -, rfl⟩ | ⟨hno, -⟩
    · rfl
    · exact absurd hacc hno

end

/-- A new file on a disk with many free data blocks. -/
theorem exists_roomyFile : ∃ (s : State) (i : Nat) (v : Vnode), RegularFile s rootEntry i v ∧
    v.data = [] ∧ s.free = 196 := by
  have hnew : ((([InodeOp.ialloc T_FILE].forM InodeOp.step)
      (iinit (blankDisk 196 8) fun _ => none)).toOption.any fun r => decide
        (0 < (r.2.icache rootEntry).ref ∧ (r.2.icache rootEntry).busy = false ∧
          (r.2.node (r.2.icache rootEntry).inum).type = T_FILE ∧
          (r.2.node (r.2.icache rootEntry).inum).size = 0 ∧ r.2.free = 196)) = true := by
    decide +kernel
  obtain ⟨⟨_, s⟩, hs, hf⟩ := exists_ok hnew
  obtain ⟨href, hbusy, htype, hsize, hfree⟩ := of_decide_eq_true hf
  have hinv : s.Inv := ((steady_run (steady_iinit (Blank.wf (by decide +kernel))) _).of_ok hs).inv
  have hne : (s.store.node (s.icache rootEntry).inum).type ≠ 0 := fun h0 =>
    absurd (htype.symm.trans h0) (by decide)
  refine ⟨s, _, _, ⟨hinv, href, hbusy, rfl, Store.view_of_type hne, htype⟩, ?_, hfree⟩
  refine length_eq_zero_iff.1 (Store.length_data.trans ?_)
  show (s.node (s.icache rootEntry).inum).size.toNat = 0
  rw [hsize]
  rfl

/-- The sections of `filewrite` to a regular file log no more blocks than are reserved for them exactly
if the first chunk is refused, finds the disk full, or is the whole write and logs no more than that.
A chunk of the largest size always logs more. -/
theorem filewrite_reservation_iff {s : State} {f : FdInode} {i : Nat} {v : Vnode}
    (h : RegularFile s f.ip i v) (addr : Nat → UInt8) (n : Int) :
    f.WithinReservation addr n s ↔
      (f.writable = true → 0 < n → Accepts v.data.length f.off.toNat (chunkSize n 0) →
        growth (blocksFor v.data.length) (f.off.toNat + chunkSize n 0) ≤ s.free →
        writeiBlocks v.data.length f.off.toNat n.toNat ≤ MAXOPBLOCKS) := by
  constructor
  · intro hall hw hn hacc hfree
    obtain ⟨p, s', hrun, hp⟩ := FdInode.first_section h addr hw hn hacc hfree
    have hfirst : writeiBlocks v.data.length f.off.toNat (chunkSize n 0) ≤ MAXOPBLOCKS :=
      hall 1 p s' hrun _ (by rw [hp]; exact mem_singleton_self _)
    have hsmall : chunkSize n 0 = n.toNat := by
      have hmax : MAXOPBLOCKS = 10 := rfl
      by_contra hne
      have hbig := @le_writeiBlocks v.data.length f.off.toNat (chunkSize n 0) (by
        unfold chunkSize at hne ⊢
        omega)
      omega
    rwa [hsmall] at hfirst
  · intro hcond k p s' hrun c hc
    cases hw : f.writable with
    | false =>
      rw [FdInode.filewriteTurns, if_pos hw] at hrun
      cases hrun
      cases hc
    | true =>
      rw [FdInode.filewriteTurns, if_neg (by simp [hw])] at hrun
      rcases le_or_gt n 0 with hn | hn
      · rw [Progress.turns_of_le (by simpa [FdInode.start] using hn)] at hrun
        cases hrun
        cases hc
      · cases k with
        | zero =>
          cases hrun
          cases hc
        | succ k =>
          rcases (FdInode.turns_sections h addr hn).of_ok hrun with ⟨-, hp⟩ | ⟨hacc, hfree, hp⟩
          · rw [hp, mem_singleton] at hc
            rw [hc]
            exact Nat.zero_le _
          · have hle := hcond hw hn hacc hfree
            have hsmall : n ≤ filewriteMax := by
              have hmax : MAXOPBLOCKS = 10 := rfl
              by_contra hne
              have hbig := @le_writeiBlocks v.data.length f.off.toNat n.toNat (by omega)
              omega
            rw [hp hsmall, mem_singleton] at hc
            rw [hc]
            exact hle

/-- Three bytes of a new file take a data block, the free map and the inode. -/
theorem filewrite_reservation_iff_newFile : ∃ (s : State) (i : Nat) (v : Vnode),
    RegularFile s rootEntry i v ∧
      FdInode.WithinReservation ⟨true, rootEntry, 0⟩ (fun _ => 7) 3 s := by
  obtain ⟨s, i, v, hfile, hdata, -⟩ := exists_roomyFile
  refine ⟨s, i, v, hfile, (filewrite_reservation_iff hfile (fun _ => 7) 3).2 fun _ _ _ _ => ?_⟩
  rw [hdata]
  decide

/-- The first chunk of a long write to a new file logs sixteen blocks: thirteen data blocks, the free
map, the indirect block and the inode. -/
theorem filewrite_logs_sixteen : ∃ (s : State) (f : FdInode) (i : Nat) (v : Vnode),
    RegularFile s f.ip i v ∧
    (∃ p s', f.filewriteTurns (fun _ => 7) filewriteMax 1 s = .ok (p, s') ∧ p.sections = [16]) ∧
    ¬ f.WithinReservation (fun _ => 7) filewriteMax s := by
  obtain ⟨s, i, v, hfile, hdata, hfree⟩ := exists_roomyFile
  have hfile' : RegularFile s (FdInode.mk true rootEntry 0).ip i v := hfile
  obtain ⟨p, s', hrun, hp⟩ := @FdInode.first_section s ⟨true, rootEntry, 0⟩ i v hfile' (fun _ => 7)
    filewriteMax rfl (by decide) (by rw [hdata]; decide) (by rw [hdata, hfree]; decide)
  rw [hdata] at hp
  have hsixteen : p.sections = [16] := hp.trans (by decide)
  refine ⟨s, ⟨true, rootEntry, 0⟩, i, v, hfile, ⟨p, s', hrun, hsixteen⟩, fun hall => ?_⟩
  exact absurd (hall 1 p s' hrun 16 (by rw [hsixteen]; exact mem_singleton_self _)) (by decide)

/-! ## What was written -/

/-- The bytes of `n` that the loop writes from the offset `off` on, before a chunk is refused. -/
def written (off n : Nat) : Nat :=
  if off + n ≤ MAXFILE * BSIZE then n
  else (MAXFILE * BSIZE - off) / filewriteMax * filewriteMax

/-- The state of the loop of `filewrite` for `n` bytes from an offset within the file: the bytes so far
are in the file, whole chunks of them, and the loop has been left only when the next chunk does not
fit. -/
structure Progress.Ok (f : FdInode) (i : Nat) (v : Vnode) (addr : Nat → UInt8) (n : Nat) (s₀ s : State)
    (p : Progress) : Prop where
  file : RegularFile s f.ip i
    { v with data := Fs.overlay v.data f.off.toNat (bytesFrom addr 0 p.i) }
  fd : p.file = { f with off := f.off + UInt32.ofNat p.i }
  le : p.i ≤ n
  bound : f.off.toNat + p.i ≤ MAXFILE * BSIZE
  free : s.free + growth (blocksFor v.data.length) (f.off.toNat + p.i) = s₀.free
  whole : p.i = n ∨ filewriteMax ∣ p.i
  failed : p.failed = true → p.i < n ∧ MAXFILE * BSIZE < f.off.toNat + p.i + chunkSize n p.i

/-- Writing two parts in a row is writing both at once. -/
theorem overlay_overlay {data a b : List UInt8} {off : Nat} (h : off ≤ data.length) :
    Fs.overlay (Fs.overlay data off a) (off + a.length) b = Fs.overlay data off (a ++ b) := by
  have hlen : (data.take off ++ a).length = off + a.length := by
    rw [length_append, length_take]
    omega
  have hsplit : Fs.overlay data off a =
      (data.take off ++ a) ++ data.drop (off + a.length) := (append_assoc ..).symm
  rw [Fs.overlay, hsplit, take_left' hlen, ← drop_drop, drop_left' hlen,
    drop_drop, Fs.overlay, length_append, append_assoc, append_assoc,
    Nat.add_assoc]

theorem blocksFor_max (a b : Nat) : blocksFor (max a b) = max (blocksFor a) (blocksFor b) :=
  blocksFor_mono.map_max

section
variable {f : FdInode} {i : Nat} {v : Vnode} {addr : Nat → UInt8} {n : Nat} {s₀ s : State}
  {p : Progress} (hoff : f.off.toNat ≤ v.data.length)
include hoff

/-- A turn of the loop writes the next chunk, or leaves the loop. -/
theorem Progress.Ok.turn (h : p.Ok f i v addr n s₀ s) (hlt : p.i < n) (hgo : p.failed = false) :
    Sat (OutOfBlocks s₀ (growth (blocksFor v.data.length)
        (min (f.off.toNat + n) (MAXFILE * BSIZE)))) (p.turn addr n) s fun p' s' =>
      p'.Ok f i v addr n s₀ s' ∧ (p'.failed = true ∨ p.i < p'.i) := by
  have hmax : MAXFILE * BSIZE < 2 ^ 32 := by decide
  have hm : filewriteMax = 6656 := rfl
  have hbound := h.bound
  have hip : p.file.ip = f.ip := by rw [h.fd]
  have hpos : p.file.off.toNat = f.off.toNat + p.i := by
    rw [h.fd]
    show (f.off + UInt32.ofNat p.i).toNat = _
    rw [UInt32.toNat_add, UInt32.toNat_ofNat', Nat.add_mod_mod]
    exact Nat.mod_eq_of_lt (by omega)
  have hlen : (Fs.overlay v.data f.off.toNat (bytesFrom addr 0 p.i)).length =
      max v.data.length (f.off.toNat + p.i) := by
    rw [length_overlay hoff, length_bytesFrom]
  have hsize : chunkSize n p.i ≤ n - p.i := by
    unfold chunkSize
    omega
  have hfile : RegularFile s p.file.ip i _ := hip ▸ h.file
  have hturn := @Progress.turn_spec s i _ p addr n hfile (by omega)
  rw [hpos, hlen, hip, blocksFor_max] at hturn
  have hgrowth : growth (blocksFor v.data.length) (f.off.toNat + p.i) +
      growth (max (blocksFor v.data.length) (blocksFor (f.off.toNat + p.i)))
        (f.off.toNat + p.i + chunkSize n p.i) =
      growth (blocksFor v.data.length) (f.off.toNat + p.i + chunkSize n p.i) :=
    growth_add (by omega)
  have hfree := h.free
  have hdvd : filewriteMax ∣ p.i := h.whole.resolve_left (by omega)
  refine hturn.mono (fun x hx => ?_) fun p' s' hs' => ?_
  · obtain ⟨hacc, rfl, hfew⟩ := hx
    have hle : growth (blocksFor v.data.length) (f.off.toNat + p.i + chunkSize n p.i) ≤
        growth (blocksFor v.data.length) (min (f.off.toNat + n) (MAXFILE * BSIZE)) :=
      growth_mono (le_min (by omega) hacc.2)
    exact ⟨rfl, by omega⟩
  · rcases hs' with ⟨hacc, hfile', hfree', rfl⟩ | ⟨hno, hfile', hfree', rfl⟩
    · refine ⟨⟨?_, ?_, ?_, ?_, ?_, ?_, ?_⟩, .inr ?_⟩
      · have hbytes := bytesFrom_add addr 0 p.i (chunkSize n p.i)
        have hover := @overlay_overlay v.data (bytesFrom addr 0 p.i)
          (bytesFrom addr p.i (chunkSize n p.i)) f.off.toNat hoff
        rw [Nat.zero_add] at hbytes
        rw [length_bytesFrom, hbytes] at hover
        rwa [hover] at hfile'
      · rw [h.fd, UInt32.ofNat_add, UInt32.add_assoc]
      · dsimp only
        omega
      · rw [← Nat.add_assoc]
        exact hacc.2
      · rw [← Nat.add_assoc, ← hgrowth]
        omega
      · dsimp only
        unfold chunkSize
        rw [hm] at hdvd ⊢
        omega
      · intro hf
        exact absurd (hgo.symm.trans hf) (by simp)
      · dsimp only
        unfold chunkSize
        omega
    · refine ⟨⟨hfile', h.fd, h.le, h.bound, hfree' ▸ hfree, h.whole, fun _ => ⟨hlt, ?_⟩⟩, .inl rfl⟩
      exact Nat.not_le.1 fun hle => hno ⟨le_max_right .., hle⟩

/-- The loop ends when everything is written or a chunk is refused. -/
theorem Progress.Ok.turns {k : Nat} (h : p.Ok f i v addr n s₀ s)
    (hk : p.failed = true ∨ n ≤ p.i + k) :
    Sat (OutOfBlocks s₀ (growth (blocksFor v.data.length)
        (min (f.off.toNat + n) (MAXFILE * BSIZE)))) (p.turns addr n k) s fun p' s' =>
      p'.Ok f i v addr n s₀ s' ∧ (p'.failed = true ∨ p'.i = n) := by
  induction k generalizing p s with
  | zero =>
    have hle := h.le
    exact ⟨h, hk.imp_right fun hn => by omega⟩
  | succ k ih =>
    rw [turns]
    refine Sat.ite (fun hend => ?_) fun hgo => ?_
    · have hle := h.le
      exact ⟨h, hend.imp_right fun hn => by omega⟩
    · rw [not_or, Bool.not_eq_true] at hgo
      refine (h.turn hoff (by omega) hgo.1).bind fun p' s' hs' => ?_
      refine ih hs'.1 (hs'.2.imp_right fun hlt => ?_)
      have hn := hk.resolve_left (by simp [hgo.1])
      omega

theorem FdInode.start_ok (h : RegularFile s f.ip i v) : f.start.Ok f i v addr n s s := by
  have hle := h.data_le
  refine ⟨?_, ?_, Nat.zero_le _, by simp only [start]; omega, ?_, .inr ⟨0, rfl⟩, nofun⟩
  · show RegularFile s f.ip i { v with data := Fs.overlay v.data f.off.toNat (bytesFrom addr 0 0) }
    rw [overlay_none]
    exact h
  · show f = { f with off := f.off + UInt32.ofNat 0 }
    simp
  · show s.free + growth (blocksFor v.data.length) (f.off.toNat + 0) = s.free
    rw [Nat.add_zero, growth, max_eq_left (blocksFor_mono hoff), Nat.sub_self, Nat.add_zero]

omit hoff in
/-- What the loop has written at its end. -/
theorem Progress.Ok.eq_written (h : p.Ok f i v addr n s₀ s) (hend : p.failed = true ∨ p.i = n) :
    p.i = written f.off.toNat n := by
  have hm : filewriteMax = 6656 := rfl
  have hbound := h.bound
  have hwhole := h.whole
  have hfailed := h.failed
  unfold written
  generalize f.off.toNat = off at *
  generalize MAXFILE * BSIZE = top at *
  unfold chunkSize at hfailed
  rw [hm] at *
  rcases hend with hf | hn
  · obtain ⟨hlt, hmore⟩ := hfailed hf
    rw [if_neg (by omega)]
    omega
  · rw [if_pos (by omega)]
    exact hn

/-- `filewrite` from an offset within the file. -/
theorem FdInode.filewrite_spec (h : RegularFile s f.ip i v) (hw : f.writable = true) :
    Sat (OutOfBlocks s (growth (blocksFor v.data.length)
        (min (f.off.toNat + n) (MAXFILE * BSIZE)))) (f.filewrite addr n) s fun r s' =>
      r.2.Ok f i v addr n s s' ∧ r.2.i = written f.off.toNat n ∧
        r.1 = if written f.off.toNat n = n then (n : Int) else -1 := by
  rw [filewrite, filewriteTurns, if_neg (by simp [hw])]
  refine ((start_ok hoff h).turns hoff (.inr (by simp [start]))).bind
    fun p s' hs' => ?_
  have hi := hs'.1.eq_written hs'.2
  rw [if_neg (by simp [hw]), sat_pure]
  refine ⟨hs'.1, hi, ?_⟩
  rw [hi]
  norm_cast

end

/-- What the result of `filewrite` of `n` bytes is to say. -/
structure Honest (f : FdInode) (i : Nat) (v : Vnode) (addr : Nat → UInt8) (n : Nat)
    (r : Int × Progress) (s' : State) : Prop where
  done : r.1 = n →
    s'.view i = some { v with data := Fs.overlay v.data f.off.toNat (bytesFrom addr 0 n) } ∧
      r.2.file = { f with off := f.off + UInt32.ofNat n }
  failed : r.1 = -1 → s'.view i = some v ∧ r.2.file = f

section
variable {f : FdInode} {i : Nat} {v : Vnode} {addr : Nat → UInt8} {n : Nat} {s : State}

/-- `filewrite` from an offset past the end of the file. -/
theorem FdInode.filewrite_past (h : RegularFile s f.ip i v) (hw : f.writable = true)
    (hoff : v.data.length < f.off.toNat) :
    Sat (fun _ => True) (f.filewrite addr n) s fun r s' => Honest f i v addr n r s' := by
  rw [filewrite, filewriteTurns, if_neg (by simp [hw])]
  cases n with
  | zero =>
    rw [Progress.turns_of_le (by simp [start]), sat_pure_bind, if_neg (by simp [hw]),
      sat_pure]
    refine ⟨fun _ => ⟨?_, ?_⟩, nofun⟩
    · rw [overlay_none]
      exact h.view
    · show f = { f with off := f.off + UInt32.ofNat 0 }
      simp
  | succ n =>
    have hpos : (0 : Int) < (n + 1 : Nat) := by omega
    have hturn := @Progress.turn_spec s i v f.start addr (n + 1 : Nat) h
      (by simp only [start]; omega)
    rw [Int.toNat_natCast, Progress.turns, if_neg (start_goes hpos), bind_assoc]
    refine (hturn.mono (fun _ _ => trivial) fun _ _ => id).bind fun p s' hs' => ?_
    rcases hs' with ⟨hacc, -⟩ | ⟨-, hfile, -, rfl⟩
    · exact absurd hacc.1 (Nat.not_le.2 hoff)
    · rw [Progress.turns_of_failed rfl, sat_pure_bind, if_neg (by simp [hw]), sat_pure]
      have hne : ((f.start.i : Nat) : Int) ≠ (n + 1 : Nat) := by
        simp only [start]
        omega
      rw [if_neg hne]
      exact ⟨fun hr => absurd hr (by omega), fun _ => ⟨hfile.view, rfl⟩⟩

end

/-- The result of `filewrite` to a regular file, by a caller that is alone, says what was written,
except when the first chunk fits below the largest size and a later one does not: then the call
returns `-1` with the earlier chunks written and `f->off` behind them. -/
theorem filewrite_honest_iff {s s' : State} {f : FdInode} {i : Nat} {v : Vnode}
    (h : RegularFile s f.ip i v) (addr : Nat → UInt8) (n : Nat) {r : Int × Progress}
    (hrun : f.filewrite addr n s = .ok (r, s')) :
    Honest f i v addr n r s' ↔
      f.writable = false ∨ v.data.length < f.off.toNat ∨
        f.off.toNat + n ≤ MAXFILE * BSIZE ∨ MAXFILE * BSIZE < f.off.toNat + filewriteMax := by
  cases hw : f.writable with
  | false =>
    rw [FdInode.filewrite, FdInode.filewriteTurns, if_pos hw, pure_bind, if_pos hw] at hrun
    cases hrun
    exact ⟨fun _ => .inl rfl, fun _ => ⟨fun hr => absurd hr (by omega), fun _ => ⟨h.view, rfl⟩⟩⟩
  | true =>
    rcases Nat.lt_or_ge v.data.length f.off.toNat with hpast | hoff
    · have hpast' := (FdInode.filewrite_past h hw hpast).of_ok hrun
      exact ⟨fun _ => .inr (.inl hpast), fun _ => hpast'⟩
    · obtain ⟨hok, hi, hr⟩ := (FdInode.filewrite_spec hoff h hw).of_ok hrun
      have hle := h.data_le
      have hm : filewriteMax = 6656 := rfl
      have hfile := hok.file.view
      have hfd := hok.fd
      rw [hi] at hfile hfd
      by_cases hfits : f.off.toNat + n ≤ MAXFILE * BSIZE
      · have hall : written f.off.toNat n = n := if_pos hfits
        rw [hall] at hfile hfd hr
        rw [if_pos rfl] at hr
        refine ⟨fun _ => .inr (.inr (.inl hfits)), fun _ => ⟨fun _ => ⟨hfile, hfd⟩, fun hneg => ?_⟩⟩
        exact absurd (hr.symm.trans hneg) (by omega)
      · have hpart : written f.off.toNat n = (70656 - f.off.toNat) / 6656 * 6656 := if_neg hfits
        have hMAX : MAXFILE * BSIZE = 70656 := rfl
        generalize written f.off.toNat n = w at *
        rw [if_neg (by omega)] at hr
        constructor
        · intro hhonest
          have hoff' := congrArg FdInode.off (hfd.symm.trans (hhonest.failed hr).2)
          have hzero : UInt32.ofNat w = 0 := by simpa using hoff'
          have hnat := congrArg UInt32.toNat hzero
          rw [UInt32.toNat_ofNat_of_lt' (by simp only [UInt32.size]; omega),
            UInt32.toNat_zero] at hnat
          omega
        · intro hcond
          obtain rfl : w = 0 := by
            rcases hcond with hc | hc | hc | hc
            · cases hc
            · omega
            · omega
            · omega
          refine ⟨fun hn => absurd (hr.symm.trans hn) (by omega), fun _ => ⟨?_, ?_⟩⟩
          · rwa [overlay_none] at hfile
          · rw [hfd]
            simp

/-- Three bytes of a new file. -/
theorem filewrite_honest_iff_newFile : ∃ (s s' : State) (i : Nat) (v : Vnode) (r : Int × Progress),
    RegularFile s rootEntry i v ∧
    FdInode.filewrite ⟨true, rootEntry, 0⟩ (fun _ => 7) 3 s = .ok (r, s') ∧ r.1 = 3 ∧
    Honest ⟨true, rootEntry, 0⟩ i v (fun _ => 7) 3 r s' := by
  obtain ⟨s, i, v, hfile, hdata, hfree⟩ := exists_roomyFile
  have hspec := @FdInode.filewrite_spec ⟨true, rootEntry, 0⟩ i v (fun _ => 7) 3 s
    (Nat.zero_le _) hfile rfl
  obtain ⟨r, s', hrun, hr⟩ := (hspec.mono (fun x hx => absurd hx.2 (by
    rw [hdata, hfree]
    decide)) fun _ _ => id).returns
  refine ⟨s, s', i, v, r, hfile, hrun, hr.2.2, (filewrite_honest_iff hfile _ 3 hrun).2 ?_⟩
  exact .inr (.inr (.inl (by decide)))

/-- A write that does not fit below the largest size returns `-1`, with ten chunks of it in the file
and `f->off` behind them. -/
theorem filewrite_fails_written : ∃ (s s' : State) (i : Nat) (v v' : Vnode) (r : Int × Progress),
    RegularFile s rootEntry i v ∧ v.data = [] ∧
    FdInode.filewrite ⟨true, rootEntry, 0⟩ (fun _ => 7) 70657 s = .ok (r, s') ∧ r.1 = -1 ∧
    s'.view i = some v' ∧ v'.data.length = 66560 ∧ r.2.file.off = 66560 ∧
    ¬ Honest ⟨true, rootEntry, 0⟩ i v (fun _ => 7) 70657 r s' := by
  obtain ⟨s, i, v, hfile, hdata, hfree⟩ := exists_roomyFile
  have hspec := @FdInode.filewrite_spec ⟨true, rootEntry, 0⟩ i v (fun _ => 7) 70657 s
    (Nat.zero_le _) hfile rfl
  obtain ⟨r, s', hrun, hok, hi, hr⟩ := (hspec.mono (fun x hx => absurd hx.2 (by
    rw [hdata, hfree]
    decide)) fun _ _ => id).returns
  have hw : written 0 70657 = 66560 := by decide
  have hi : r.2.i = 66560 := hi.trans hw
  have hfail : r.1 = -1 := by
    rw [hr]
    decide
  have hfd : r.2.file.off = 66560 := by
    rw [hok.fd, hi]
    decide
  have hlen := length_bytesFrom (fun _ => 7) 0 66560
  have hview := hok.file.view
  rw [hi] at hview
  refine ⟨s, s', i, v, _, r, hfile, hdata, hrun, hfail, hview, ?_, hfd, fun hhonest => ?_⟩
  · rw [hdata, UInt32.toNat_zero, length_overlay (Nat.zero_le _), hlen]
    decide
  · have hsame := congrArg FdInode.off (hhonest.failed hfail).2
    rw [hfd] at hsame
    exact absurd hsame (by decide)

end TronBoss.File
