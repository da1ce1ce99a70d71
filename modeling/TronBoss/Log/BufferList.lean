import TronBoss.Lib.CircularList
import TronBoss.Log.CacheSpec
import TronBoss.Log.Log

/-!
# The buffer cache with its pointers

`bio.c` once more, now with the links of the buffers and for processes that sleep in `bget` and in
`iderw`. A step is a section under `bcache.lock`, or what a process does with a buffer it holds. The
contents of the buffers are left to `TronBoss.Log.Bio`, whose list of buffers is the ring of this
model. `held` says which process got a buffer from `bget` and did not release it yet; the source
keeps only the flag `B_BUSY`.
-/

namespace TronBoss.Bio

open Lib Function List

/-- `struct buf`, without its links and its data. The first three fields are the flags. -/
structure Buf where
  busy : Bool
  valid : Bool
  dirty : Bool
  dev : UInt32
  blockno : UInt32

/-- A buffer of the cache, or `bcache.head`. -/
abbrev Node : Type := Option (Fin NBUF)

/-- `-1`, the device of a buffer that was never used. -/
def noDev : UInt32 := 0xffffffff

/-- Where a process is. -/
inductive Pc where
  /-- It is not in a function of `bio.c`. -/
  | run
  /-- It is in `bget` and has to search, for the first time or after a sleep. -/
  | getting (dev blockno : UInt32)
  /-- It is in `bread`, and `bget` has returned. -/
  | got (b : Fin NBUF)
  /-- It waits in `iderw`. -/
  | waiting (b : Fin NBUF)
  deriving DecidableEq

/-- The cache, and what the processes do with it. -/
structure Sys (T : Type) where
  links : Links Node
  buf : Fin NBUF → Buf
  havedisk1 : Bool
  held : T → Fin NBUF → Bool
  pc : T → Pc

/-- The links that `binit` makes. -/
def binitLinks : Links Node :=
  (List.finRange NBUF).foldl (fun l b => l.pushFront none (some b))
    { next := fun _ => none, prev := fun _ => none }

/-- The zeroed cache after `binit`. -/
def Sys.boot (T : Type) (havedisk1 : Bool) : Sys T where
  links := binitLinks
  buf _ := { busy := false, valid := false, dirty := false, dev := noDev, blockno := 0 }
  havedisk1 := havedisk1
  held _ _ := false
  pc _ := .run

/-! ## Sections -/

/-- A search through the buffers, from the head along `step`. -/
def search (step : Node → Node) (p : Fin NBUF → Bool) : Except Stop (Option (Fin NBUF)) := do
  let x ← findRing step none (fun x => x.any p) (NBUF + 1) (step none)
  return x.join

/-- What `bget` finds under the lock. -/
inductive Found where
  /-- The buffer of the block is busy, and the caller sleeps. -/
  | sleep
  /-- The buffer of the block. -/
  | hit (b : Fin NBUF)
  /-- A buffer to recycle. -/
  | recycle (b : Fin NBUF)

/-- The two searches of `bget`. -/
def bgetFind (links : Links Node) (buf : Fin NBUF → Buf) (dev blockno : UInt32) :
    Except Stop Found := do
  match ← search links.next fun b => (buf b).dev = dev ∧ (buf b).blockno = blockno with
  | some b => return if (buf b).busy then .sleep else .hit b
  | none =>
    match ← search links.prev fun b => (buf b).busy = false ∧ (buf b).dirty = false with
    | some b => return .recycle b
    | none => throw (.panic "bget: no buffers")

/-- The checks of `iderw` and of `idestart`. -/
def iderwCheck (havedisk1 : Bool) (x : Buf) : Except Stop Unit := do
  panicIf (x.busy = false) "iderw: buf not busy"
  panicIf (x.valid = true ∧ x.dirty = false) "iderw: nothing to do"
  panicIf (x.dev ≠ 0 ∧ havedisk1 = false) "iderw: ide disk 1 not present"
  panicIf (FSSIZE ≤ x.blockno.toNat) "incorrect blockno"

/-- The six writes of `brelse`. -/
def brelseLinks (b : Fin NBUF) (links : Links Node) : Links Node :=
  (links.remove (some b)).pushFront none (some b)

/-- What a process does. `logWrite` comes with what `log_write` finds in `log`. -/
inductive Act (T : Type) where
  | bread (t : T) (dev blockno : UInt32)
  | bget (t : T)
  | filled (t : T)
  | ideintr (t : T)
  | bwrite (t : T) (b : Fin NBUF)
  | brelse (t : T) (b : Fin NBUF)
  | logWrite (t : T) (b : Fin NBUF) (n size outstanding : Int)

section
variable {T : Type} [DecidableEq T]

def Sys.setBuf (s : Sys T) (b : Fin NBUF) (x : Buf) : Sys T :=
  { s with buf := update s.buf b x }

def Sys.setPc (s : Sys T) (t : T) (pc : Pc) : Sys T :=
  { s with pc := update s.pc t pc }

/-- The process gets a buffer or gives it up. -/
def Sys.setHeld (s : Sys T) (t : T) (b : Fin NBUF) (x : Bool) : Sys T :=
  { s with held := update s.held t (update (s.held t) b x) }

/-- `bget`, from the loop on. -/
def bget (t : T) (s : Sys T) : Except Stop (Sys T) :=
  match s.pc t with
  | .getting dev blockno => do
    match ← bgetFind s.links s.buf dev blockno with
    | .sleep => return s
    | .hit b =>
      return ((s.setBuf b { s.buf b with busy := true }).setHeld t b true).setPc t (.got b)
    | .recycle b =>
      let x := { busy := true, valid := false, dirty := false, dev := dev, blockno := blockno }
      return ((s.setBuf b x).setHeld t b true).setPc t (.got b)
  | _ => throw .disabled

/-- One step. -/
def Sys.step (s : Sys T) : Act T → Except Stop (Sys T)
  | .bread t dev blockno => do
    require (s.pc t = .run)
    return s.setPc t (.getting dev blockno)
  | .bget t => bget t s
  | .filled t =>
    -- the test of `B_VALID` in `bread`
    match s.pc t with
    | .got b =>
      if (s.buf b).valid then return s.setPc t .run
      else do
        iderwCheck s.havedisk1 (s.buf b)
        return s.setPc t (.waiting b)
    | _ => throw .disabled
  | .ideintr t =>
    match s.pc t with
    | .waiting b => return (s.setBuf b { s.buf b with valid := true, dirty := false }).setPc t .run
    | _ => throw .disabled
  | .bwrite t b => do
    require (s.pc t = .run ∧ s.held t b = true)
    panicIf ((s.buf b).busy = false) "bwrite"
    let s := s.setBuf b { s.buf b with dirty := true }
    iderwCheck s.havedisk1 (s.buf b)
    return s.setPc t (.waiting b)
  | .brelse t b => do
    require (s.pc t = .run ∧ s.held t b = true)
    panicIf ((s.buf b).busy = false) "brelse"
    return { (s.setBuf b { s.buf b with busy := false }).setHeld t b false with
      links := brelseLinks b s.links }
  | .logWrite t b n size outstanding => do
    require (s.pc t = .run ∧ s.held t b = true)
    panicIf (n ≥ LOGSIZE ∨ n ≥ size - 1) "too big a transaction"
    panicIf (outstanding < 1) "log_write outside of trans"
    return s.setBuf b { s.buf b with dirty := true }

/-- The states of the interleavings. -/
inductive Sys.Reachable : Sys T → Prop where
  | boot (havedisk1 : Bool) : Reachable (.boot T havedisk1)
  | step {s s' : Sys T} {a : Act T} : Reachable s → s.step a = .ok s' → Reachable s'

end

/-! ## The ring -/

/-- The ring through `bcache.head` has the buffers `xs`. -/
def RingOf (links : Links Node) (xs : List (Fin NBUF)) : Prop :=
  links.Ring none (xs.map some) ∧ xs.Perm (List.finRange NBUF)

/-- `binit` links the buffers in a ring, the last one first. -/
theorem ringOf_binit : RingOf binitLinks (List.finRange NBUF).reverse := by
  refine ⟨?_, reverse_perm _⟩
  have hnodup : ((List.finRange NBUF).map some ++ [(none : Node)]).Nodup := by
    refine nodup_append.2 ⟨(nodup_finRange NBUF).map (Option.some_injective _),
      nodup_singleton none, ?_⟩
    intro x hx y hy
    obtain ⟨b, -, rfl⟩ := mem_map.1 hx
    rw [mem_singleton.1 hy]
    exact Option.some_ne_none b
  have hring := (Links.ring_nil (l := { next := fun _ => none, prev := fun _ => none })
    rfl rfl).foldl_pushFront hnodup
  rw [foldl_map, append_nil, ← map_reverse] at hring
  exact hring

section
variable {links : Links Node} {xs : List (Fin NBUF)} {p : Fin NBUF → Bool} {b : Fin NBUF}

theorem RingOf.mem (h : RingOf links xs) (b : Fin NBUF) : b ∈ xs :=
  h.2.mem_iff.2 (mem_finRange b)

theorem RingOf.length_lt (h : RingOf links xs) : (xs.map some).length < NBUF + 1 := by
  rw [length_map, h.2.length_eq, length_finRange]
  exact Nat.lt_succ_self NBUF

theorem find?_map_some (xs : List (Fin NBUF)) :
    ((xs.map some).find? fun x => x.any p).join = xs.find? p := by
  have hp : (fun x : Option (Fin NBUF) => x.any p) ∘ some = p := rfl
  rw [find?_map, hp]
  cases xs.find? p with
  | none | some b => rfl

/-- The search from the most recently used buffer on. -/
theorem RingOf.search_next (h : RingOf links xs) : search links.next p = .ok (xs.find? p) := by
  rw [search, h.1.findRing_next h.length_lt, ok_bind, find?_map_some]
  rfl

/-- The search from the least recently used buffer on. -/
theorem RingOf.search_prev (h : RingOf links xs) :
    search links.prev p = .ok (xs.reverse.find? p) := by
  rw [search, h.1.findRing_prev h.length_lt, ok_bind, ← map_reverse, find?_map_some]
  rfl

/-- A buffer that is released becomes the first of the ring. -/
theorem RingOf.brelse (h : RingOf links xs) : RingOf (brelseLinks b links) (b :: xs.erase b) := by
  have hb := h.mem b
  have hnd : xs.Nodup := h.2.nodup_iff.2 (nodup_finRange NBUF)
  refine ⟨?_, (perm_cons_erase hb).symm.trans h.2⟩
  have hnot := hnd.not_mem_erase (a := b)
  obtain ⟨us, ws, -, rfl, herase⟩ := exists_erase_eq hb
  rw [herase] at hnot ⊢
  have hring := h.1
  rw [map_append, map_cons] at hring
  rw [map_cons, map_append]
  refine hring.remove.pushFront ?_
  simpa using hnot

end

/-! ## The invariant -/

/-- Two buffers of a device have different blocks. -/
def Distinct (buf : Fin NBUF → Buf) : Prop :=
  ∀ b b', (buf b).dev ≠ noDev → (buf b).dev = (buf b').dev → (buf b).blockno = (buf b').blockno →
    b = b'

/-- What holds in every state. -/
structure Sys.Inv {T : Type} (s : Sys T) : Prop where
  ring : ∃ xs, RingOf s.links xs
  distinct : Distinct s.buf
  busy : ∀ b, (s.buf b).busy = true ↔ ∃ t, s.held t b = true
  one : ∀ b t t', s.held t b = true → s.held t' b = true → t = t'
  pc : ∀ t b, s.pc t = .got b ∨ s.pc t = .waiting b → s.held t b = true

theorem Sys.Inv.boot {T : Type} (havedisk1 : Bool) : (Sys.boot T havedisk1).Inv where
  ring := ⟨_, ringOf_binit⟩
  distinct _ _ h := absurd rfl h
  busy _ := ⟨nofun, fun ⟨_, h⟩ => nomatch h⟩
  one _ _ _ h := nomatch h
  pc _ _ h := h.elim nofun nofun

section
variable {T : Type} [DecidableEq T] {s s' : Sys T} {t : T} {b : Fin NBUF} {x : Buf}

theorem Sys.Inv.setPc (h : s.Inv) {pc : Pc}
    (hpc : ∀ b, pc = .got b ∨ pc = .waiting b → s.held t b = true) : (s.setPc t pc).Inv := by
  refine ⟨h.ring, h.distinct, h.busy, h.one, fun t' b hb => ?_⟩
  rcases eq_or_ne t' t with rfl | hne
  · simp only [Sys.setPc, update_self] at hb
    exact hpc b hb
  · simp only [Sys.setPc, update_of_ne hne] at hb
    exact h.pc t' b hb

/-- The buffers are told apart as before when only one changes, and becomes none of the others. -/
theorem Distinct.update {buf : Fin NBUF → Buf} (h : Distinct buf)
    (hx : ∀ b' ≠ b, x.dev ≠ noDev → (buf b').dev = x.dev → (buf b').blockno ≠ x.blockno) :
    Distinct (update buf b x) := by
  intro b1 b2 hdev hd hn
  rcases eq_or_ne b1 b with h1 | h1 <;> rcases eq_or_ne b2 b with h2 | h2
  · exact h1.trans h2.symm
  · rw [h1, update_self, update_of_ne h2] at hd hn
    rw [h1, update_self] at hdev
    exact absurd hn.symm (hx b2 h2 hdev hd.symm)
  · rw [h2, update_self, update_of_ne h1] at hd hn
    rw [update_of_ne h1] at hdev
    exact absurd hn (hx b1 h1 (hd ▸ hdev) hd)
  · rw [update_of_ne h1, update_of_ne h2] at hd hn
    rw [update_of_ne h1] at hdev
    exact h b1 b2 hdev hd hn

omit [DecidableEq T] in
/-- Flags of a buffer, apart from `B_BUSY`. -/
theorem Sys.Inv.setFlags (h : s.Inv) (b : Fin NBUF) (v d : Bool) :
    (s.setBuf b { s.buf b with valid := v, dirty := d }).Inv := by
  refine ⟨h.ring, h.distinct.update fun b' hne hx hd hn => ?_, fun b' => ?_, h.one, h.pc⟩
  · exact hne (h.distinct b b' hx hd.symm hn.symm).symm
  · rcases eq_or_ne b' b with rfl | hne
    · simp only [setBuf, update_self]
      exact h.busy b'
    · simp only [setBuf, update_of_ne hne]
      exact h.busy b'

theorem Sys.setHeld_apply (v : Bool) (t' : T) (b' : Fin NBUF) :
    (s.setHeld t b v).held t' b' = if t' = t ∧ b' = b then v else s.held t' b' := by
  rcases eq_or_ne t' t with rfl | ht
  · rcases eq_or_ne b' b with rfl | hb
    · simp [setHeld]
    · simp [setHeld, hb]
  · simp [setHeld, ht]

/-- A process gets a buffer that was not busy. -/
theorem Sys.Inv.take (h : s.Inv) (hfree : (s.buf b).busy = false) (hx : x.busy = true)
    (hdistinct : Distinct (update s.buf b x)) :
    ((s.setBuf b x).setHeld t b true).Inv := by
  have hmine : ∀ t', ((s.setBuf b x).setHeld t b true).held t' b = true ↔ t' = t := by
    intro t'
    rw [setHeld_apply]
    split
    · next hc => exact iff_of_true rfl hc.1
    · next hc =>
      refine iff_of_false (fun hh => ?_) fun ht => hc ⟨ht, rfl⟩
      exact Bool.false_ne_true (hfree.symm.trans ((h.busy b).2 ⟨t', hh⟩))
  refine ⟨h.ring, hdistinct, fun b' => ?_, fun b' t1 t2 h1 h2 => ?_, fun t' b' hpc => ?_⟩
  · rcases eq_or_ne b' b with rfl | hne
    · refine iff_of_true ?_ ⟨t, (hmine t).2 rfl⟩
      simp only [setHeld, setBuf, update_self, hx]
    · simp only [setHeld_apply, hne, and_false, if_false]
      simp only [setHeld, setBuf, update_of_ne hne]
      exact h.busy b'
  · rcases eq_or_ne b' b with rfl | hne
    · exact ((hmine t1).1 h1).trans ((hmine t2).1 h2).symm
    · rw [setHeld_apply, if_neg fun hc => hne hc.2] at h1 h2
      exact h.one b' t1 t2 h1 h2
  · rw [setHeld_apply]
    split
    · rfl
    · exact h.pc t' b' hpc

/-- A process gives up a buffer. -/
theorem Sys.Inv.release (h : s.Inv) (hheld : s.held t b = true) (hpc : s.pc t = .run) :
    Sys.Inv { (s.setBuf b { s.buf b with busy := false }).setHeld t b false with
      links := brelseLinks b s.links } := by
  obtain ⟨xs, hxs⟩ := h.ring
  have hother : ∀ t' b', ((s.setBuf b { s.buf b with busy := false }).setHeld t b false).held t' b' =
      true ↔ b' ≠ b ∧ s.held t' b' = true := by
    intro t' b'
    rw [setHeld_apply]
    split
    · next hc => exact iff_of_false Bool.false_ne_true fun hc' => hc'.1 hc.2
    · next hc =>
      refine ⟨fun hh => ⟨?_, hh⟩, fun hh => hh.2⟩
      rintro rfl
      exact hc ⟨h.one b' t' t hh hheld, rfl⟩
  refine ⟨⟨_, hxs.brelse⟩, h.distinct.update fun b' hne hx hd hn => ?_, fun b' => ?_,
    fun b' t1 t2 h1 h2 => ?_, fun t' b' hpc' => (hother t' b').2 ⟨?_, h.pc t' b' hpc'⟩⟩
  · exact hne (h.distinct b b' hx hd.symm hn.symm).symm
  · simp only [hother]
    rcases eq_or_ne b' b with rfl | hne
    · refine iff_of_false ?_ fun ⟨_, hc, _⟩ => hc rfl
      simp [setHeld, setBuf]
    · simp only [setHeld, setBuf, update_of_ne hne]
      rw [h.busy b']
      exact exists_congr fun t' => (and_iff_right hne).symm
  · exact h.one b' t1 t2 ((hother t1 b').1 h1).2 ((hother t2 b').1 h2).2
  · rintro rfl
    have htt := h.one b' t' t (h.pc t' b' hpc') hheld
    subst htt
    have hrun : s.pc t' = .got b' ∨ s.pc t' = .waiting b' := hpc'
    rw [hpc] at hrun
    exact hrun.elim nofun nofun

/-! ## Steps -/

/-- What `bget` finds on a ring. -/
theorem bgetFind_eq {links : Links Node} {buf : Fin NBUF → Buf} {xs : List (Fin NBUF)}
    (h : RingOf links xs) (dev blockno : UInt32) :
    bgetFind links buf dev blockno =
      match xs.find? fun b => (buf b).dev = dev ∧ (buf b).blockno = blockno with
      | some b => .ok (if (buf b).busy then .sleep else .hit b)
      | none =>
        match xs.reverse.find? fun b => (buf b).busy = false ∧ (buf b).dirty = false with
        | some b => .ok (.recycle b)
        | none => .error (.panic "bget: no buffers") := by
  rw [bgetFind, h.search_next, ok_bind]
  split
  · rfl
  · rw [h.search_prev, ok_bind]
    split <;> rfl

/-- A buffer that is dirty and not busy keeps its block. -/
def Sys.Keeps (s s' : Sys T) : Prop :=
  ∀ b, (s.buf b).dirty = true → (s.buf b).busy = false →
    (s'.buf b).dev = (s.buf b).dev ∧ (s'.buf b).blockno = (s.buf b).blockno

omit [DecidableEq T] in
theorem Sys.keeps_of_update {s' : Sys T} (hs' : s'.buf = update s.buf b x)
    (hx : (s.buf b).dirty = true → (s.buf b).busy = false →
      x.dev = (s.buf b).dev ∧ x.blockno = (s.buf b).blockno) : s.Keeps s' := by
  intro b' hd hb
  rw [hs']
  rcases eq_or_ne b' b with rfl | hne
  · rw [update_self]
    exact hx hd hb
  · rw [update_of_ne hne]
    exact ⟨rfl, rfl⟩

/-- `bget` keeps the invariant, and the block of a buffer that is dirty and not busy. -/
theorem Sys.Inv.bget (h : s.Inv) (hs : bget t s = .ok s') : s'.Inv ∧ s.Keeps s' := by
  obtain ⟨xs, hxs⟩ := h.ring
  rw [Bio.bget] at hs
  split at hs
  · have hgot : ∀ {s1 : Sys T} {b : Fin NBUF}, s1.held t b = true → ∀ b', Pc.got b = .got b' ∨
        Pc.got b = .waiting b' → s1.held t b' = true := by
      rintro s1 b hheld b' (hb | hb)
      · cases hb
        exact hheld
      · cases hb
    rw [bgetFind_eq hxs] at hs
    split at hs
    · rename_i b hfind
      split at hs
      · cases hs
        exact ⟨h, fun _ _ _ => ⟨rfl, rfl⟩⟩
      · rename_i hfree
        cases hs
        rw [Bool.not_eq_true] at hfree
        refine ⟨(h.take hfree rfl ?_).setPc (hgot ?_), keeps_of_update rfl fun _ _ => ⟨rfl, rfl⟩⟩
        · exact h.distinct.update fun b' hne hx hd hn => hne (h.distinct b b' hx hd.symm hn.symm).symm
        · rw [setHeld_apply, if_pos ⟨rfl, rfl⟩]
    · rename_i hnone
      split at hs
      · rename_i b hfind
        have hb := find?_some hfind
        obtain ⟨hfree, hclean⟩ := of_decide_eq_true hb
        cases hs
        refine ⟨(h.take hfree rfl ?_).setPc (hgot ?_), keeps_of_update rfl fun hd _ => ?_⟩
        · refine h.distinct.update fun b' _ _ hd hn => ?_
          exact find?_eq_none.1 hnone b' (hxs.mem b') (decide_eq_true ⟨hd, hn⟩)
        · rw [setHeld_apply, if_pos ⟨rfl, rfl⟩]
        · exact absurd (hclean.symm.trans hd) Bool.false_ne_true
      · cases hs
  · cases hs

/-- One step keeps the invariant, and recycles no buffer that the log has pinned. -/
theorem Sys.Inv.step {a : Act T} (h : s.Inv) (hs : s.step a = .ok s') : s'.Inv ∧ s.Keeps s' := by
  cases a with
  | bread t dev blockno =>
    obtain ⟨-, -, hs⟩ := bind_eq_ok.1 hs
    cases hs
    exact ⟨h.setPc fun b hb => hb.elim nofun nofun, fun _ _ _ => ⟨rfl, rfl⟩⟩
  | bget t => exact h.bget hs
  | filled t =>
    rw [Sys.step.eq_def] at hs
    dsimp only at hs
    split at hs
    · rename_i b hpc
      have hheld := h.pc t b (.inl hpc)
      split at hs
      · cases hs
        exact ⟨h.setPc fun b hb => hb.elim nofun nofun, fun _ _ _ => ⟨rfl, rfl⟩⟩
      · obtain ⟨-, -, hs⟩ := bind_eq_ok.1 hs
        cases hs
        refine ⟨h.setPc ?_, fun _ _ _ => ⟨rfl, rfl⟩⟩
        rintro b' (hb | hb) <;> cases hb
        exact hheld
    · cases hs
  | ideintr t =>
    rw [Sys.step.eq_def] at hs
    dsimp only at hs
    split at hs
    · rename_i b hpc
      cases hs
      refine ⟨(h.setFlags b true false).setPc fun b hb => hb.elim nofun nofun, ?_⟩
      exact keeps_of_update rfl fun _ _ => ⟨rfl, rfl⟩
    · cases hs
  | bwrite t b =>
    obtain ⟨_, hreq, hs⟩ := bind_eq_ok.1 hs
    obtain ⟨-, -, hs⟩ := bind_eq_ok.1 hs
    obtain ⟨-, -, hs⟩ := bind_eq_ok.1 hs
    cases hs
    refine ⟨(h.setFlags b (s.buf b).valid true).setPc ?_,
      keeps_of_update rfl fun _ _ => ⟨rfl, rfl⟩⟩
    rintro b' (hb | hb) <;> cases hb
    exact (require_eq_ok.1 hreq).2
  | brelse t b =>
    obtain ⟨_, hreq, hs⟩ := bind_eq_ok.1 hs
    obtain ⟨-, -, hs⟩ := bind_eq_ok.1 hs
    cases hs
    obtain ⟨hrun, hheld⟩ := require_eq_ok.1 hreq
    exact ⟨h.release hheld hrun, keeps_of_update rfl fun _ _ => ⟨rfl, rfl⟩⟩
  | logWrite t b n size outstanding =>
    obtain ⟨-, -, hs⟩ := bind_eq_ok.1 hs
    obtain ⟨-, -, hs⟩ := bind_eq_ok.1 hs
    obtain ⟨-, -, hs⟩ := bind_eq_ok.1 hs
    cases hs
    exact ⟨h.setFlags b (s.buf b).valid true, keeps_of_update rfl fun _ _ => ⟨rfl, rfl⟩⟩

theorem Sys.Reachable.inv (h : s.Reachable) : s.Inv := by
  induction h with
  | boot havedisk1 => exact .boot havedisk1
  | step _ hs ih => exact (ih.step hs).1

/-- In every interleaving: the buffers form one ring through `bcache.head`, a block of a device has
at most one buffer, a busy buffer has one holder, and no step recycles a buffer that is dirty and
not busy. The searches of `bget` end. -/
theorem bcache_identity (h : s.Reachable) :
    (∃ xs : List (Fin NBUF), s.links.Ring none (xs.map some) ∧ xs.Perm (List.finRange NBUF)) ∧
    (∀ b b', (s.buf b).dev ≠ noDev → (s.buf b).dev = (s.buf b').dev →
      (s.buf b).blockno = (s.buf b').blockno → b = b') ∧
    (∀ b, (s.buf b).busy = true ↔ ∃ t, s.held t b = true) ∧
    (∀ b t t', s.held t b = true → s.held t' b = true → t = t') ∧
    (∀ a s', s.step a = .ok s' → ∀ b, (s.buf b).dirty = true → (s.buf b).busy = false →
      (s'.buf b).dev = (s.buf b).dev ∧ (s'.buf b).blockno = (s.buf b).blockno) ∧
    ∀ dev blockno, bgetFind s.links s.buf dev blockno ≠ .error .diverge := by
  have hinv := h.inv
  refine ⟨hinv.ring, hinv.distinct, hinv.busy, hinv.one, fun a s' hs => (hinv.step hs).2,
    fun dev blockno => ?_⟩
  obtain ⟨xs, hxs⟩ := hinv.ring
  rw [bgetFind_eq hxs]
  split
  · nofun
  · split <;> nofun

/-- What a list of steps reaches. -/
theorem Sys.Reachable.run {as : List (Act T)} (h : s.Reachable)
    (hr : as.foldlM Sys.step s = .ok s') : s'.Reachable :=
  foldlM_keeps (fun _ h hs => h.step hs) h hr

/-- One process logs block 5 and releases it, and another one is about to get block 6. -/
def pinRun : List (Act Bool) :=
  let b : Fin NBUF := ⟨0, NBUF_pos⟩
  [.bread false 1 5, .bget false, .filled false, .ideintr false, .logWrite false b 0 30 1,
    .brelse false b, .bread true 1 6]

/-- The buffer of block 5 is first in the ring, dirty and free, and it stays that of block 5. -/
theorem bcache_identity_pinRun : ∃ s s' : Sys Bool, s.Reachable ∧ s.step (.bget true) = .ok s' ∧
    s.links.next none = some ⟨0, by decide⟩ ∧ (s.buf ⟨0, by decide⟩).dirty = true ∧
    (s'.buf ⟨0, by decide⟩).dev = 1 ∧ (s'.buf ⟨0, by decide⟩).blockno = 5 := by
  have hrun : ((pinRun.foldlM Sys.step (.boot Bool true)).toOption.any fun s =>
      decide (s.links.next none = some ⟨0, by decide⟩ ∧ (s.buf ⟨0, by decide⟩).dirty = true ∧
        (s.buf ⟨0, by decide⟩).busy = false ∧ (s.buf ⟨0, by decide⟩).dev = 1 ∧
        (s.buf ⟨0, by decide⟩).blockno = 5) &&
      (s.step (.bget true)).toOption.any fun _ => true) = true := by
    decide +kernel
  obtain ⟨s, hs, hf⟩ := exists_ok hrun
  rw [Bool.and_eq_true] at hf
  obtain ⟨hfirst, hdirty, hfree, hdev, hno⟩ := of_decide_eq_true hf.1
  obtain ⟨s', hs', -⟩ := exists_ok hf.2
  have hreach := (Sys.Reachable.boot true).run hs
  obtain ⟨hkeep, -⟩ := (bcache_identity hreach).2.2.2.2
  obtain ⟨hdev', hno'⟩ := hkeep (.bget true) s' hs' ⟨0, by decide⟩ hdirty hfree
  exact ⟨s, s', hreach, hs', hfirst, hdirty, hdev'.trans hdev, hno'.trans hno⟩

/-! ## The cache as a list -/

/-- A buffer of `TronBoss.Log.Bio`, where there is one device, with the same flags. -/
structure Agree {H : Type} (dev : UInt32) (x : Buf) (y : TronBoss.Buf H) : Prop where
  block : y.blockno = if x.dev = dev then some x.blockno else none
  busy : y.busy.isSome = x.busy
  valid : y.valid = x.valid
  dirty : y.dirty = x.dirty

/-- The cache of `TronBoss.Log.Bio` has the buffers in the order of the ring. -/
structure Refines {H : Type} (dev : UInt32) (s : Sys T) (c : Bcache H) : Prop where
  ring : RingOf s.links c.order
  agree : ∀ b, Agree dev (s.buf b) (c.buf b)

section
variable {H : Type} {dev n : UInt32} {c : Bcache H} {who : H}

omit [DecidableEq T] in
/-- A buffer changes in the same way on both sides. -/
theorem Refines.setBuf {s' : Sys T} {y : TronBoss.Buf H} (h : Refines dev s c)
    (hlinks : s'.links = s.links) (hbuf : s'.buf = update s.buf b x)
    (hxy : Agree dev x y) : Refines dev s' (c.setBuf b y) := by
  refine ⟨hlinks ▸ h.ring, fun b' => ?_⟩
  rw [hbuf]
  rcases eq_or_ne b' b with rfl | hne
  · rw [update_self, Bcache.setBuf_self]
    exact hxy
  · rw [update_of_ne hne, Bcache.setBuf_of_ne hne]
    exact h.agree b'

omit [DecidableEq T] in
/-- The searches of `bget` find the same on both sides. -/
theorem Refines.bgetFind_eq (h : Refines dev s c) :
    bgetFind s.links s.buf dev n =
      match c.order.find? fun b => (c.buf b).blockno = some n with
      | some b => .ok (if (c.buf b).busy.isNone then .hit b else .sleep)
      | none =>
        match c.order.reverse.find? fun b => (c.buf b).busy.isNone && !(c.buf b).dirty with
        | some b => .ok (.recycle b)
        | none => .error (.panic "bget: no buffers") := by
  have hblock : ∀ b, (c.buf b).blockno = some n ↔ (s.buf b).dev = dev ∧ (s.buf b).blockno = n := by
    intro b
    rw [(h.agree b).block]
    split <;> simp [*]
  have hbusy : ∀ b, (c.buf b).busy.isNone = !(s.buf b).busy := by
    intro b
    rw [← (h.agree b).busy, Option.not_isSome]
  have hfree : ∀ b, ((c.buf b).busy.isNone && !(c.buf b).dirty) =
      decide ((s.buf b).busy = false ∧ (s.buf b).dirty = false) := by
    intro b
    rw [hbusy, (h.agree b).dirty]
    cases (s.buf b).busy <;> cases (s.buf b).dirty <;> rfl
  rw [Bio.bgetFind_eq h.ring]
  simp only [hblock, hfree]
  split
  · rename_i b _
    rw [hbusy]
    cases (s.buf b).busy <;> rfl
  · rfl

/-- `bget` on the ring does what it does on the list: it sleeps where the list model waits, stops
where it stops, and otherwise gets the same buffer. -/
theorem Refines.bget_same (h : Refines dev s c) (hpc : s.pc t = .getting dev n) :
    (bget t s = .ok s ∧ TronBoss.bget who n c = .error .disabled) ∨
    (∃ b s' c', bget t s = .ok s' ∧ s'.pc t = .got b ∧ TronBoss.bget who n c = .ok (b, c') ∧
      Refines dev s' c') ∨
    ∃ e, bget t s = .error e ∧ TronBoss.bget who n c = .error e := by
  have hpc' : ∀ (s1 : Sys T) pc, (s1.setPc t pc).pc t = pc := fun s1 pc => update_self ..
  rw [Bio.bget, hpc, TronBoss.bget]
  dsimp only
  rw [h.bgetFind_eq]
  cases c.order.find? fun b => (c.buf b).blockno = some n with
  | some b =>
    dsimp only
    split
    · refine .inr (.inl ⟨b, _, _, rfl, hpc' _ _, rfl, h.setBuf rfl rfl ?_⟩)
      exact ⟨(h.agree b).block, rfl, (h.agree b).valid, (h.agree b).dirty⟩
    · exact .inl ⟨rfl, rfl⟩
  | none =>
    cases c.order.reverse.find? fun b => (c.buf b).busy.isNone && !(c.buf b).dirty with
    | some b =>
      refine .inr (.inl ⟨b, _, _, rfl, hpc' _ _, rfl, h.setBuf rfl rfl ?_⟩)
      exact ⟨(if_pos rfl).symm, rfl, rfl, rfl⟩
    | none => exact .inr (.inr ⟨_, rfl, rfl⟩)

/-- `brelse` moves the buffer to the front on both sides. -/
theorem Refines.brelse (h : Refines dev s c) (hs : s.step (.brelse t b) = .ok s') :
    ∃ c', TronBoss.brelse b c = .ok c' ∧ Refines dev s' c' := by
  obtain ⟨_, -, hs⟩ := bind_eq_ok.1 hs
  obtain ⟨_, hbusy, hs⟩ := bind_eq_ok.1 hs
  cases hs
  rw [panicIf_eq_ok, ← (h.agree b).busy, Bool.not_eq_false, Option.isSome_iff_ne_none] at hbusy
  rw [TronBoss.brelse, panicIf_neg (by simpa using hbusy), ok_bind]
  have hset : Refines dev (s.setBuf b { s.buf b with busy := false })
      (c.setBuf b { c.buf b with busy := none }) :=
    h.setBuf rfl rfl ⟨(h.agree b).block, rfl, (h.agree b).valid, (h.agree b).dirty⟩
  exact ⟨_, rfl, h.ring.brelse, hset.agree⟩

end

end

/-- While one process holds the buffer of block 5, another one gets a buffer for block 6. -/
theorem bget_same_second : ∃ (s s' : Sys Bool) (c c' : Bcache Bool) (b b' : Fin NBUF),
    Refines 1 s c ∧ (c.buf b).blockno = some 5 ∧ (c.buf b).busy = some false ∧ b' ≠ b ∧
      bget true s = .ok s' ∧ s'.pc true = .got b' ∧ TronBoss.bget true 6 c = .ok (b', c') ∧
      Refines 1 s' c' := by
  let s₀ : Sys Bool := ((Sys.boot Bool true).setPc false (.getting 1 5)).setPc true (.getting 1 6)
  let c₀ : Bcache Bool := binit fun _ => .zero
  have h₀ : Refines 1 s₀ c₀ := ⟨ringOf_binit, fun _ => ⟨rfl, rfl, rfl, rfl⟩⟩
  have hring : ((bget false s₀).toOption.any fun s => decide (s.pc true = .getting 1 6)) = true := by
    decide +kernel
  have hlist : ((TronBoss.bget false 5 c₀).toOption.any fun r =>
      decide ((r.2.buf r.1).blockno = some 5 ∧ (r.2.buf r.1).busy = some false) &&
        (TronBoss.bget true 6 r.2).toOption.any fun r' => decide (r'.1 ≠ r.1)) = true := by
    decide +kernel
  obtain ⟨s, hs, hpc⟩ := exists_ok hring
  obtain ⟨⟨b, c⟩, hc, hlist⟩ := exists_ok hlist
  obtain ⟨hb, hnext⟩ := (Bool.and_eq_true _ _).mp hlist
  obtain ⟨⟨b', c'⟩, hc', hne⟩ := exists_ok hnext
  have h : Refines 1 s c := by
    rcases @Refines.bget_same Bool _ s₀ false _ _ 5 c₀ false h₀ rfl with
      ⟨-, he⟩ | ⟨_, _, _, hs', -, he, h⟩ | ⟨e, -, he⟩
    · cases he.symm.trans hc
    · cases he.symm.trans hc
      cases hs'.symm.trans hs
      exact h
    · cases he.symm.trans hc
  rcases @Refines.bget_same Bool _ s true _ _ 6 c true h (of_decide_eq_true hpc) with
    ⟨-, he⟩ | ⟨_, s', _, hs', hgot, he, h'⟩ | ⟨e, -, he⟩
  · cases he.symm.trans hc'
  · cases he.symm.trans hc'
    obtain ⟨hblock, hbusy⟩ := of_decide_eq_true hb
    exact ⟨s, s', c, c', b, b', h, hblock, hbusy, of_decide_eq_true hne, hs', hgot, hc', h'⟩
  · cases he.symm.trans hc'

end TronBoss.Bio
