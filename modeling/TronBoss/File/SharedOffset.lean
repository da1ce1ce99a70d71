import TronBoss.File.UserBuffer
import TronBoss.Fs.Dirents
import TronBoss.Fs.Structure

/-!
# Writes through a shared file offset

Any number of processes write to a regular file through one `struct file`. A call of `filewrite`
writes one chunk at a time, and holds the lock of the inode from reading `f->off` to advancing it; a
step of the machine is one such chunk. `log` lists the chunks in the order of the lock, with the
offset that each was written at.
-/

namespace TronBoss.File

open Lib Fs Function List

variable {cs : List Chunk}

/-- A chunk that `filewrite` has written. -/
structure Chunk where
  writer : Nat
  off : Nat
  bytes : List UInt8

/-- The offset behind a chunk. -/
def Chunk.stop (c : Chunk) : Nat := c.off + c.bytes.length

/-- The file system, `f->off`, the bytes that the calls in progress have left, and the chunks that
have been written. -/
structure Shared where
  fs : State
  off : UInt32
  left : Nat → Option (List UInt8)
  log : List Chunk

/-- What `filewrite` does to the inode with its lock. -/
def writeLocked (e : Fin NINODE) (src : List UInt8) (off : Nat) : FsM Int := do
  Fs.ilock e
  let r ← Fs.writei e src off
  Fs.iunlock e
  return r

/-- The assignment to what a call has left. -/
def setLeft (i : Nat) (left : Option (List UInt8)) : Routine Shared Unit :=
  modify fun s => { s with left := update s.left i left }

/-- A turn of the loop of `filewrite`, by a process with bytes to write. -/
def filewriteChunk (e : Fin NINODE) (i : Nat) (left : List UInt8) : Routine Shared Unit := do
  let off := (← get).off
  let src := left.take filewriteMax
  let r ← zoom Shared.fs (fun s fs => { s with fs }) (writeLocked e src off.toNat)
  if 0 < r then
    modify fun s => { s with
      off := s.off + UInt32.ofNat r.toNat
      log := s.log ++ [⟨i, off.toNat, src⟩] }
  if r < 0 then setLeft i none
  else
    panicIf (r ≠ src.length) "short filewrite"
    setLeft i (some (left.drop filewriteMax))

/-- A step: a process calls `filewrite`, or goes on with its call. -/
inductive SharedAct where
  | write (i : Nat) (addr : List UInt8)
  | go (i : Nat)

/-- The step of `filewrite` on the file of the cache entry `e`. -/
def SharedAct.run (e : Fin NINODE) : SharedAct → Routine Shared Unit
  | .write i addr => do
    let s ← get
    require (s.left i = none ∧ addr.length < 2 ^ 31)
    setLeft i (some addr)
  | .go i => do
    match (← get).left i with
    | none => throw .disabled
    | some [] => setLeft i none
    | some left => filewriteChunk e i left

/-- The states that the writers reach from a state. -/
inductive Shared.Reachable (e : Fin NINODE) (s₀ : Shared) : Shared → Prop where
  | init : Reachable e s₀ s₀
  | step {s s' : Shared} {a : SharedAct} :
    Reachable e s₀ s → a.run e s = .ok ((), s') → Reachable e s₀ s'

/-- A regular file in cache entry `e`, for inode `i`, that nobody has locked. -/
structure RegularFile (s : State) (e : Fin NINODE) (i : Nat) (v : Vnode) : Prop where
  inv : s.Inv
  ref : 0 < (s.icache e).ref
  free : (s.icache e).busy = false
  inum : (s.icache e).inum = i
  view : s.view i = some v
  regular : v.type = T_FILE

/-- The file that is written to, whichever inode it is. -/
abbrev Shared.Ready (e : Fin NINODE) (s : Shared) (v : Vnode) : Prop :=
  RegularFile s.fs e (s.fs.icache e).inum v

/-! ## One chunk -/

/-- `writei` takes `n` bytes at `off` of a file of `size` bytes. -/
def Accepts (size off n : Nat) : Prop := off ≤ size ∧ off + n ≤ MAXFILE * BSIZE

instance (size off n : Nat) : Decidable (Accepts size off n) := inferInstanceAs (Decidable (_ ∧ _))

section
variable {s : State} {e : Fin NINODE} {i : Nat} {v : Vnode} {src : List UInt8} {off : Nat}

theorem RegularFile.ready (h : RegularFile s e i v) : RegularFile s e (s.icache e).inum v :=
  h.inum.symm ▸ h

/-- The file with other contents, after `writei` and `iunlock`. -/
theorem RegularFile.iunlock {s2 : State} {v' : Vnode} (hr : 0 < (s.icache e).ref)
    (hinv : s2.Inv) (hh : s2.handle e = { s.handle e with busy := true, valid := true })
    (hv : s2.view (s.icache e).inum = some v') (ht : v'.type = T_FILE) {E : Stop → Prop} :
    Sat E (Fs.iunlock e) s2 fun _ s' => RegularFile s' e (s.icache e).inum v' ∧
      Spent s2 s' 0 ∅ := by
  have hr2 : 0 < (s2.icache e).ref := hr.trans_eq (congrArg Handle.ref hh).symm
  refine ((Fs.iunlock_spec hinv hr2 (congrArg Handle.busy hh)).and iunlock_spent).weaken
    fun _ s' hs' => ?_
  obtain ⟨⟨hinv', -, hview', hh'⟩, hspent⟩ := hs'
  have he' : s'.handle e = { s.handle e with busy := false, valid := true } := by
    rw [hh', update_self, hh]
  exact ⟨⟨hinv', hr.trans_eq (congrArg Handle.ref he').symm, congrArg Handle.busy he',
    congrArg Handle.inum he', hview' ▸ hv, ht⟩, hspent⟩

/-- A chunk that `writei` takes is written as a whole at its offset, unless the disk is full, and else
the file stays as it is. -/
theorem writeLocked_exact (h : RegularFile s e i v) :
    Sat (fun x => Accepts v.data.length off src.length ∧
        OutOfBlocks s (growth (blocksFor v.data.length) (off + src.length)) x)
      (writeLocked e src off) s fun r s' =>
      Accepts v.data.length off src.length ∧ r = src.length ∧
          RegularFile s' e i { v with data := Fs.overlay v.data off src } ∧
          (∃ X, X.ncard = writeiBlocks v.data.length off src.length ∧
            Spent s s' (growth (blocksFor v.data.length) (off + src.length)) X) ∨
        ¬ Accepts v.data.length off src.length ∧ r = -1 ∧ RegularFile s' e i v ∧
          Spent s s' 0 ∅ := by
  obtain ⟨hinv, hr, hb, rfl, hv, ht⟩ := h
  have ha := State.node_type_ne_of_view (s := s) (by rw [hv]; simp)
  refine ((Fs.ilock_spec hinv (.inl hr) (.inl hb) (.inl ha)).and ilock_spent).bind
    fun _ s1 hs1 => ?_
  obtain ⟨⟨hinv1, -, hview1, hl, -, -, hh1⟩, hspent1⟩ := hs1
  have he1 : s1.handle e = { s.handle e with busy := true, valid := true } := by
    rw [hh1, update_self]
  have hi1 : (s1.icache e).inum = (s.icache e).inum := congrArg Handle.inum he1
  have hv1 : (s1.icache e).vnode (s1.store.data (s1.icache e).inum) = v := by
    have hview := hinv1.view_of_loaded hl
    rw [hi1, hview1, hv, ← hi1] at hview
    exact (Option.some.inj hview).symm
  have hreg : (s1.icache e).type ≠ T_DEV := by
    have hty : (s1.icache e).type = T_FILE := (congrArg Vnode.type hv1).trans ht
    rw [hty]
    decide
  have hdata : s1.store.data (s1.icache e).inum = v.data := congrArg Vnode.data hv1
  have hsize : (s1.icache e).size.toNat = v.data.length := by
    rw [← hinv1.length_data hl, hdata]
  by_cases hfits : Accepts v.data.length off src.length
  · have hwrite := Fs.writei_exact hinv1 hl (hsize ▸ hfits.1) hfits.2 hreg
    rw [hsize] at hwrite
    have hstop (n : Nat) (x : Stop) (hx : OutOfBlocks s1 n x) : OutOfBlocks s n x := by
      have hx' := hspent1.outOfBlocks hx
      rwa [Nat.zero_add] at hx'
    refine (hwrite.mono (fun x hx => ⟨hfits, hstop _ x hx⟩) fun _ _ => id).bind fun r s2 hs2 => ?_
    obtain ⟨hr2, hinv2, -, hh2, hview2, X, hX, hspent2⟩ := hs2
    have hfile : s2.view (s.icache e).inum =
        some { v with data := Fs.overlay v.data off src } := by
      rw [hview2, hi1, update_self, ← hi1, hdata, ← hv1]
      rfl
    refine (RegularFile.iunlock hr hinv2 (hh2 ▸ he1) hfile ht).bind fun _ s' hs' => ?_
    refine .inl ⟨hfits, hr2, hs'.1, X, hX, ?_⟩
    have hspent := (hspent1.trans hspent2).trans hs'.2
    rwa [Nat.zero_add, Nat.add_zero, Set.empty_union, Set.union_empty] at hspent
  · have hbad : (s1.icache e).size.toNat < off ∨ MAXFILE * BSIZE < off + src.length := by
      rw [hsize]
      unfold Accepts at hfits
      omega
    refine (Fs.writei_refuses hreg hbad).bind fun r s2 hs2 => ?_
    obtain ⟨rfl, rfl⟩ := hs2
    refine (RegularFile.iunlock hr hinv1 he1 (hview1 ▸ hv) ht).bind fun _ s' hs' => ?_
    have hspent := hspent1.trans hs'.2
    rw [Set.union_empty] at hspent
    exact .inr ⟨hfits, rfl, hs'.1, hspent⟩

end

/-! ## Runs -/

/-- The chunks lie one behind the other from the offset `a` to the offset `b`. -/
def Tiles (a : Nat) : List Chunk → Nat → Prop
  | [], b => a = b
  | c :: cs, b => c.off = a ∧ c.bytes ≠ [] ∧ Tiles c.stop cs b

theorem Tiles.concat {a b : Nat} {c : Chunk} (h : Tiles a cs b) (hc : c.off = b)
    (hne : c.bytes ≠ []) : Tiles a (cs ++ [c]) c.stop := by
  induction cs generalizing a with
  | nil => exact ⟨hc.trans h.symm, hne, rfl⟩
  | cons d cs ih => exact ⟨h.1, h.2.1, ih h.2.2⟩

theorem Tiles.sum {a b : Nat} (h : Tiles a cs b) :
    b = a + (cs.map fun c => c.bytes.length).sum := by
  induction cs generalizing a with
  | nil => exact h.symm
  | cons c cs ih =>
    rw [ih h.2.2, Chunk.stop, h.1, map_cons, sum_cons, Nat.add_assoc]

theorem Tiles.le {a b : Nat} (h : Tiles a cs b) : a ≤ b := by
  rw [h.sum]
  exact Nat.le_add_right ..

/-- Every offset in between belongs to a chunk. -/
theorem Tiles.mem_iff {a b x : Nat} (h : Tiles a cs b) :
    (a ≤ x ∧ x < b) ↔ ∃ c ∈ cs, c.off ≤ x ∧ x < c.stop := by
  induction cs generalizing a with
  | nil =>
    obtain rfl : a = b := h
    simp
  | cons c cs ih =>
    have hle := h.2.2.le
    have hc : c.off ≤ c.stop := Nat.le_add_right ..
    rw [exists_mem_cons_iff, ← ih h.2.2, h.1]
    rw [h.1] at hc
    omega

theorem Tiles.le_off {a b : Nat} (h : Tiles a cs b) {c : Chunk} (hc : c ∈ cs) : a ≤ c.off := by
  induction cs generalizing a with
  | nil => cases hc
  | cons d cs ih =>
    rcases mem_cons.1 hc with rfl | hc
    · exact h.1.ge
    · have hle := ih h.2.2 hc
      rw [Chunk.stop, h.1] at hle
      omega

/-- No two chunks share an offset. -/
theorem Tiles.pairwise {a b : Nat} (h : Tiles a cs b) : cs.Pairwise fun c d => c.stop ≤ d.off := by
  induction cs generalizing a with
  | nil => exact .nil
  | cons c cs ih => exact pairwise_cons.2 ⟨fun d hd => h.2.2.le_off hd, ih h.2.2⟩

theorem Tiles.stop_le {a b : Nat} (h : Tiles a cs b) {c : Chunk} (hc : c ∈ cs) : c.stop ≤ b := by
  induction cs generalizing a with
  | nil => cases hc
  | cons d cs ih =>
    rcases mem_cons.1 hc with rfl | hc
    · exact h.2.2.le
    · exact ih h.2.2 hc

/-- The bytes of a chunk are in the file, where the chunk was written. -/
def Chunk.In (c : Chunk) (data : List UInt8) : Prop := (data.drop c.off).take c.bytes.length = c.bytes

/-- A chunk is not touched by a write behind it. -/
theorem Chunk.In.overlay {c : Chunk} {data src : List UInt8} {off : Nat} (h : c.In data)
    (hc : c.stop ≤ off) (hoff : off ≤ data.length) : c.In (Fs.overlay data off src) := by
  rw [Chunk.stop] at hc
  rw [Chunk.In, Fs.overlay, take_drop_append_left (by rw [length_take]; omega), drop_take,
    take_take, min_eq_left (by omega)]
  exact h

theorem in_overlay {i off : Nat} {data src : List UInt8} (hoff : off ≤ data.length) :
    Chunk.In ⟨i, off, src⟩ (Fs.overlay data off src) := by
  have hlen : (data.take off).length = off := by simp [hoff]
  rw [Chunk.In, Fs.overlay, take_drop_append_right hlen.le, hlen, Nat.sub_self, drop_zero,
    take_left]

/-- What the writers keep: the chunks follow each other up to `f->off`, and their bytes are in the
file. -/
structure Shared.Tiled (e : Fin NINODE) (a : Nat) (s : Shared) : Prop where
  ready : ∃ v, s.Ready e v ∧ ∀ c ∈ s.log, c.In v.data
  tiles : Tiles a s.log s.off.toNat

section
variable {e : Fin NINODE} {a : Nat} {s s' : Shared}

theorem Shared.Tiled.setLeft (h : s.Tiled e a) (left : Nat → Option (List UInt8)) :
    { s with left }.Tiled e a := by
  obtain ⟨⟨v, hv, hin⟩, ht⟩ := h
  exact ⟨⟨v, hv, hin⟩, ht⟩

/-- A turn of the loop of `filewrite` keeps the chunks in a row. -/
theorem filewriteChunk_tiled (h : s.Tiled e a) {i : Nat} {left : List UInt8} (hne : left ≠ []) :
    Sat (fun _ => True) (filewriteChunk e i left) s fun _ s' => s'.Tiled e a := by
  obtain ⟨⟨v, hv, hin⟩, ht⟩ := h
  have hsrc : left.take filewriteMax ≠ [] := by
    intro hnil
    rw [take_eq_nil_iff] at hnil
    exact hnil.elim (by decide) hne
  rw [filewriteChunk, sat_get_bind, sat_bind, sat_zoom]
  refine (writeLocked_exact hv).mono (fun _ _ => trivial) fun r fs hfs => ?_
  rcases hfs with ⟨⟨hoff, hmax⟩, rfl, hf, -⟩ | ⟨-, rfl, hf, -⟩
  · have hpos : 0 < ((left.take filewriteMax).length : Int) := by
      exact_mod_cast length_pos_iff.2 hsrc
    rw [if_pos hpos, sat_modify_bind, if_neg (by omega), sat_panicIf_bind]
    refine ⟨fun hbad => absurd rfl hbad, fun _ => ?_⟩
    have hlt : MAXFILE * BSIZE < UInt32.size := by decide
    have hstop : (s.off + UInt32.ofNat ((left.take filewriteMax).length : Int).toNat).toNat =
        Chunk.stop ⟨i, s.off.toNat, left.take filewriteMax⟩ := by
      rw [Int.toNat_natCast, UInt32.toNat_add, UInt32.toNat_ofNat_of_lt' (by omega), Chunk.stop]
      exact Nat.mod_eq_of_lt (by omega : _ < UInt32.size)
    refine Shared.Tiled.setLeft (s := { s with fs, off := _, log := _ })
      ⟨⟨{ v with data := Fs.overlay v.data s.off.toNat (left.take filewriteMax) },
        hf.ready, ?_⟩, ?_⟩ _
    · intro c hc
      rcases mem_append.1 hc with hc | hc
      · exact (hin c hc).overlay (ht.stop_le hc) hoff
      · rw [mem_singleton.1 hc]
        exact in_overlay hoff
    · rw [hstop]
      exact ht.concat rfl hsrc
  · rw [if_neg (by decide)]
    rw [if_pos (by decide)]
    exact Shared.Tiled.setLeft (s := { s with fs })
      ⟨⟨v, hf.ready, hin⟩, ht⟩ _

/-- A step of a writer keeps the chunks in a row. -/
theorem Shared.Tiled.step {x : SharedAct} (h : s.Tiled e a) (hs : x.run e s = .ok ((), s')) :
    s'.Tiled e a := by
  refine Sat.of_ok (E := fun _ => True) (Q := fun _ s' => s'.Tiled e a) ?_ hs
  cases x with
  | write i addr =>
    rw [SharedAct.run, sat_get_bind, sat_require_bind]
    exact ⟨fun _ => trivial, fun _ => h.setLeft _⟩
  | go i =>
    rw [SharedAct.run, sat_get_bind]
    split
    · trivial
    · exact h.setLeft _
    · rename_i left hne _
      exact filewriteChunk_tiled h hne

theorem Shared.Reachable.tiled {s0 : Shared} (h : Reachable e s0 s) (h0 : s0.Tiled e a) :
    s.Tiled e a := by
  induction h with
  | init => exact h0
  | step _ hs ih => exact ih.step hs

end

/-- Writes through one `struct file` to a regular file do not run into each other. However many
processes write, in whatever order they get the lock of the inode: the chunks that `filewrite` has
written since the start are at disjoint ranges which cover the offsets from the first `f->off` to
the last, `f->off` has advanced by the number of bytes written, and the bytes of each chunk are in
the file at its offset. -/
theorem shared_writes_tile {e : Fin NINODE} {s₀ s : Shared} {v : Vnode} (h₀ : s₀.Ready e v)
    (hlog : s₀.log = []) (h : Shared.Reachable e s₀ s) :
    s.log.Pairwise (fun c d => c.stop ≤ d.off) ∧
    (∀ x, s₀.off.toNat ≤ x ∧ x < s.off.toNat ↔ ∃ c ∈ s.log, c.off ≤ x ∧ x < c.stop) ∧
    s.off.toNat = s₀.off.toNat + (s.log.map fun c => c.bytes.length).sum ∧
    ∃ v', s.fs.view (s.fs.icache e).inum = some v' ∧ ∀ c ∈ s.log, c.In v'.data := by
  have hstart : s₀.Tiled e s₀.off.toNat := by
    refine ⟨⟨v, h₀, fun c hc => ?_⟩, by rw [hlog]; rfl⟩
    rw [hlog] at hc
    cases hc
  obtain ⟨⟨v', hv', hin⟩, ht⟩ := h.tiled hstart
  exact ⟨ht.pairwise, fun x => ht.mem_iff, ht.sum, v', hv'.view, hin⟩

theorem Shared.Reachable.run {e : Fin NINODE} {s0 s s' : Shared} {as : List SharedAct}
    (h : Reachable e s0 s) (hr : (as.forM (SharedAct.run e)) s = .ok ((), s')) :
    Reachable e s0 s' := by
  have hkeep : Sat (fun _ => True) (as.forM (SharedAct.run e)) s fun _ s' => Reachable e s0 s' :=
    Sat.run (fun _ _ h => Sat.of_returns fun _ _ hs => h.step hs) h
  exact hkeep.of_ok hr

/-- Two processes write, and the second one is faster. -/
def raceRun : List SharedAct := [.write 0 [1, 2], .write 1 [3], .go 1, .go 0]

/-- A new file, and no writer. -/
def newFile (fs : State) : Shared := ⟨fs, 0, fun _ => none, []⟩

/-- The byte of the faster process comes first, and the others follow it. -/
theorem shared_writes_tile_raceRun : ∃ s₀ s : Shared, Shared.Reachable rootEntry s₀ s ∧
    s.log.map Chunk.bytes = [[3], [1, 2]] ∧ s.off = 3 ∧
    s.log.Pairwise (fun c d => c.stop ≤ d.off) ∧
    ∃ v, s.fs.view (s.fs.icache rootEntry).inum = some v ∧ ∀ c ∈ s.log, c.In v.data := by
  have hnew : ((([InodeOp.ialloc T_FILE].forM InodeOp.step)
      (iinit (blankDisk 4 8) fun _ => none)).toOption.any fun r => decide
        (0 < (r.2.icache rootEntry).ref ∧ (r.2.icache rootEntry).busy = false ∧
          (r.2.node (r.2.icache rootEntry).inum).type = T_FILE ∧
          ((raceRun.forM (SharedAct.run rootEntry)) (newFile r.2)).toOption.any
            (fun q => q.2.log.map Chunk.bytes = [[3], [1, 2]] ∧ q.2.off = 3))) = true := by
    decide +kernel
  obtain ⟨⟨_, fs⟩, hfs, hf⟩ := exists_ok hnew
  obtain ⟨href, hbusy, htype, hrace⟩ := of_decide_eq_true hf
  obtain ⟨⟨_, s⟩, hs, hq⟩ := exists_ok hrace
  obtain ⟨hlog, hoff⟩ := of_decide_eq_true hq
  have hinv : fs.Inv := ((steady_run (steady_iinit (Blank.wf (by decide +kernel))) _).of_ok hfs).inv
  have hne : (fs.store.node (fs.icache rootEntry).inum).type ≠ 0 := fun h0 =>
    absurd (htype.symm.trans h0) (by decide)
  have hview := Store.view_of_type hne
  have hready : (newFile fs).Ready rootEntry _ := ⟨hinv, href, hbusy, rfl, hview, htype⟩
  have hinit : Shared.Reachable rootEntry (newFile fs) (newFile fs) := .init
  have hreach := hinit.run hs
  obtain ⟨hpair, -, -, hv⟩ := shared_writes_tile hready rfl hreach
  exact ⟨newFile fs, s, hreach, hlog, hoff, hpair, hv⟩

end TronBoss.File
