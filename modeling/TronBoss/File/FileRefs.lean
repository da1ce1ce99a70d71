import TronBoss.File.Table
import TronBoss.Lib.Ledger

/-!
# Conservation of references to files

The reference count of a file is the number of descriptors that hold it and of references that the
call in progress has in hand. A pipe is in memory while one of its ends has a file, an end is open
while a file stands for it, and never do two files stand for the same end.
-/

namespace TronBoss.Fs

open Lib Function
open TronBoss.File (Pipe)

/-- The file table alone: nothing becomes of the inodes behind the files. -/
instance : Inodes Unit where
  release _ := pure ()
  opened _ := pure ()
  unopened _ := pure ()
  retain := pure

/-- The file that a descriptor holds. -/
def Kernel.desc (k : Kernel Unit) (x : Fin NPROC × Fin NOFILE) : Option (Fin NFILE) :=
  (k.proc x.1).ofile x.2

/-- The number of descriptors that hold a file. -/
def Kernel.slots (k : Kernel Unit) (f : Fin NFILE) : Nat :=
  (Finset.univ.filter fun x => k.desc x = some f).card

/-- The page is a pipe that was not freed yet. -/
def Kernel.Live (k : Kernel Unit) (a : UInt32) : Prop := k.allocs a = k.frees a + 1

/-- `writeopen` or `readopen`. -/
def endOpen (p : Pipe) (writable : Bool) : Bool := if writable then p.writeopen else p.readopen

/-- The file is the end of a pipe. -/
def File.IsEnd (x : File) (a : UInt32) (w : Bool) : Prop :=
  x.type = .pipe ∧ x.pipe = a ∧ x.writable = w

/-- What holds of the pipes. -/
structure Kernel.PipesOk (k : Kernel Unit) : Prop where
  free_or_live : ∀ a, k.allocs a = k.frees a ∨ k.Live a
  ends : ∀ a w, k.Live a ∧ endOpen (k.pipe a) w = true ↔ ∃ f, (k.file f).IsEnd a w
  unique : ∀ f g a w, (k.file f).IsEnd a w → (k.file g).IsEnd a w → f = g
  some_open : ∀ a, k.Live a → ∃ w, endOpen (k.pipe a) w = true

/-- What holds of the table while a call has the references `hand`. The processes have the directories
`c`, and those of `L` may have open files. -/
structure Kernel.Ok (c : Fin NPROC → Option (Fin NINODE)) (L : Fin NPROC → Prop)
    (hand : Fin NFILE → Int) (k : Kernel Unit) : Prop where
  count : ∀ f, (k.file f).ref = k.slots f + hand f
  nonneg : ∀ f, 0 ≤ (k.file f).ref
  free : ∀ f, (k.file f).ref = 0 → (k.file f).type = .none
  pipes : k.PipesOk
  cwd : ∀ p, (k.proc p).cwd = c p
  dead : ∀ p fd, ¬ L p → (k.proc p).ofile fd = none

/-- What holds between calls: only processes that run have open files. -/
def Kernel.Counted (k : Kernel Unit) : Prop := ∃ c, k.Ok c (fun p => c p ≠ none) 0

section
variable {t : Kernel Unit} {c : Fin NPROC → Option (Fin NINODE)} {L : Fin NPROC → Prop}
  {hand : Fin NFILE → Int} {f g : Fin NFILE} {p : Fin NPROC} {fd : Fin NOFILE}
  {Q : Unit → Kernel Unit → Prop} {a : UInt32}

/-- A reference in hand is counted. -/
theorem Kernel.Ok.pos (h : t.Ok c L hand) (hf : 0 < hand f) : ¬ (t.file f).ref < 1 := by
  have hcount := h.count f
  omega

/-- A reference of a descriptor is counted. -/
theorem Kernel.Ok.pos_of_slot (h : t.Ok c L 0) (hx : (t.proc p).ofile fd = some f) :
    ¬ (t.file f).ref < 1 := by
  have hcount := h.count f
  have hslots : 0 < t.slots f := (card_filter_pos fun y => t.desc y = some f).2 ⟨(p, fd), hx⟩
  rw [Pi.zero_apply] at hcount
  omega

/-! ## Elementary changes -/

/-- The pipes are as before when the same files are ends of them. -/
theorem Kernel.PipesOk.setFile (h : t.PipesOk) {x : File}
    (hx : ∀ a w, x.IsEnd a w ↔ (t.file f).IsEnd a w) :
    Kernel.PipesOk { t with file := update t.file f x } := by
  have hsame := (forall_update_iff t.file fun g y => ∀ a w, y.IsEnd a w ↔ (t.file g).IsEnd a w).2
    ⟨hx, fun _ _ _ _ => Iff.rfl⟩
  refine ⟨h.free_or_live, fun a w => ?_, fun f' g a w hf hg => ?_, h.some_open⟩
  · exact (h.ends a w).trans (exists_congr fun g => (hsame g a w).symm)
  · exact h.unique f' g a w ((hsame f' a w).1 hf) ((hsame g a w).1 hg)

/-- Another value in one file, with its count moved by what comes into hand. -/
theorem Kernel.Ok.setFile (h : t.Ok c L hand) {x : File} {n : Int}
    (href : x.ref = (t.file f).ref + n) (hnonneg : 0 ≤ x.ref) (hfree : x.ref = 0 → x.type = .none)
    {pipe : UInt32 → Pipe} {allocs frees : UInt32 → Nat}
    (hpipes : Kernel.PipesOk { t with
      file := update t.file f x, pipe := pipe, allocs := allocs, frees := frees }) :
    Kernel.Ok c L (hand + Pi.single f n) { t with
      file := update t.file f x, pipe := pipe, allocs := allocs, frees := frees } := by
  refine ⟨?_, ?_, ?_, hpipes, h.cwd, h.dead⟩
  · refine (forall_update_iff t.file fun g y =>
      y.ref = t.slots g + (hand g + (Pi.single f n : Fin NFILE → Int) g)).2 ⟨?_, fun g hne => ?_⟩
    · rw [href, h.count, Pi.single_eq_same, add_assoc]
    · rw [h.count, Pi.single_eq_of_ne hne, add_zero]
  · exact (forall_update_iff t.file fun _ y => 0 ≤ y.ref).2 ⟨hnonneg, fun g _ => h.nonneg g⟩
  · exact (forall_update_iff t.file fun _ y => y.ref = 0 → y.type = .none).2
      ⟨hfree, fun g _ => h.free g⟩

/-- Another reference count. -/
theorem Kernel.Ok.setRef (h : t.Ok c L hand) {n : Int} (hpos : 0 < (t.file f).ref + n) :
    Kernel.Ok c L (hand + Pi.single f n) { t with
      file := update t.file f { t.file f with ref := (t.file f).ref + n } } :=
  h.setFile rfl hpos.le (fun h0 => absurd h0 hpos.ne') (h.pipes.setFile fun _ _ => Iff.rfl)

/-- The kernel after an assignment to a descriptor. -/
def Kernel.withDesc (k : Kernel Unit) (p : Fin NPROC) (fd : Fin NOFILE) (o : Option (Fin NFILE)) :
    Kernel Unit :=
  { k with proc := update k.proc p { k.proc p with ofile := update (k.proc p).ofile fd o } }

theorem Kernel.cwd_withDesc (k : Kernel Unit) (p q : Fin NPROC) (fd : Fin NOFILE)
    (o : Option (Fin NFILE)) : ((k.withDesc p fd o).proc q).cwd = (k.proc q).cwd := by
  refine (forall_update_iff k.proc fun q x => x.cwd = (k.proc q).cwd).2 ⟨?_, fun _ _ => rfl⟩ q
  rfl

theorem Kernel.desc_withDesc (k : Kernel Unit) (p : Fin NPROC) (fd : Fin NOFILE)
    (o : Option (Fin NFILE)) : (k.withDesc p fd o).desc = update k.desc (p, fd) o := by
  funext ⟨q, fd'⟩
  rcases eq_or_ne q p with rfl | hne
  · rcases eq_or_ne fd' fd with rfl | hfd
    · simp only [desc, withDesc, update_self]
    · rw [update_of_ne fun h => hfd (congrArg Prod.snd h)]
      simp only [desc, withDesc, update_self, update_of_ne hfd]
  · rw [update_of_ne fun h => hne (congrArg Prod.fst h)]
    simp only [desc, withDesc, update_of_ne hne]

/-- A descriptor of a process takes a reference out of hand and brings the one it had. -/
theorem Kernel.Ok.setDesc (h : t.Ok c L hand) {o : Option (Fin NFILE)} (hp : L p ∨ o = none) :
    (t.withDesc p fd o).Ok c L (hand + owned ((t.proc p).ofile fd) - owned o) := by
  have hdesc := t.desc_withDesc p fd o
  refine ⟨fun f => ?_, h.nonneg, h.free, ⟨h.pipes.1, h.pipes.2, h.pipes.3, h.pipes.4⟩,
    fun q => (t.cwd_withDesc ..).trans (h.cwd q), fun q fd' hq => ?_⟩
  · have hcount := h.count f
    have hcard := card_filter_update (fun o => o = some f) t.desc (p, fd) o
    rw [← owned_apply, ← owned_apply] at hcard
    change (t.file f).ref = ((t.withDesc p fd o).slots f : Int) + (hand f + owned (t.desc (p, fd)) f -
      owned o f)
    rw [slots, hdesc, hcard, hcount, slots]
    ring
  · change (t.withDesc p fd o).desc (q, fd') = none
    rw [hdesc]
    exact (forall_update_iff t.desc fun x o => ¬ L x.1 → o = none).2
      ⟨hp.resolve_left, fun x _ => h.dead x.1 x.2⟩ (q, fd') hq

/-- A process starts or ends. Without a directory, it has no open files. -/
theorem Kernel.Ok.setCwd (h : t.Ok c L hand) {e : Option (Fin NINODE)}
    (hdead : ∀ q fd, update c p e q = none → (t.proc q).ofile fd = none) :
    Kernel.Ok (update c p e) (fun q => update c p e q ≠ none) hand
      { t with proc := update t.proc p { t.proc p with cwd := e } } := by
  have hofile := (forall_update_iff t.proc fun q x => x.ofile = (t.proc q).ofile).2
    ⟨(rfl : { t.proc p with cwd := e }.ofile = _), fun _ _ => rfl⟩
  refine ⟨fun f => ?_, h.nonneg, h.free, ⟨h.pipes.1, h.pipes.2, h.pipes.3, h.pipes.4⟩, ?_,
    fun q fd hq => ?_⟩
  · simp only [slots, desc, hofile]
    exact h.count f
  · refine (forall_update_iff t.proc fun q x => x.cwd = update c p e q).2 ⟨?_, fun q hne => ?_⟩
    · rw [update_self]
    · rw [update_of_ne hne, h.cwd]
  · simp only [hofile]
    exact hdead q fd (not_not.1 hq)

/-- Files may change in what is not counted. -/
theorem Kernel.Ok.congr (h : t.Ok c L hand) {t' : Kernel Unit}
    (href : ∀ f, (t'.file f).ref = (t.file f).ref)
    (hfree : ∀ f, (t.file f).ref = 0 → (t'.file f).type = .none) (hproc : t'.proc = t.proc)
    (hpipes : t'.PipesOk) : t'.Ok c L hand := by
  refine ⟨fun f => ?_, fun f => href f ▸ h.nonneg f, fun f hf => hfree f (href f ▸ hf), hpipes, ?_, ?_⟩
  · have hdesc : t'.desc = t.desc := funext fun x => by rw [desc, hproc, desc]
    rw [href, h.count, slots, slots, hdesc]
  · rw [hproc]
    exact h.cwd
  · rw [hproc]
    exact h.dead

/-! ## Pipes -/

theorem endOpen_pipeclose (p : Pipe) (w v : Bool) :
    endOpen (File.pipeclose w p) v = true ↔ endOpen p v = true ∧ v ≠ w := by
  cases w <;> cases v <;> simp [endOpen, File.pipeclose]

/-- After one end is closed, the pipe is closed if the other end was. -/
theorem pipeclose_closed (p : Pipe) (w : Bool) :
    (File.pipeclose w p).readopen = false ∧ (File.pipeclose w p).writeopen = false ↔
      endOpen p (!w) = false := by
  cases w <;> simp [endOpen, File.pipeclose]

/-- `frees` after `pipeclose`. -/
def Kernel.freesAfter (t : Kernel Unit) (a : UInt32) (w : Bool) : UInt32 → Nat :=
  if endOpen (t.pipe a) (!w) = false then update t.frees a (t.frees a + 1) else t.frees

theorem sat_pipeclose {E : Stop → Prop} {w : Bool} (h : Q () { t with
      pipe := update t.pipe a (File.pipeclose w (t.pipe a)), frees := t.freesAfter a w }) :
    Sat E (pipeclose a w) t Q := by
  rw [pipeclose, sat_modify_bind, sat_get_bind]
  simp only [update_self, pipeclose_closed]
  rw [Kernel.freesAfter] at h
  split at h
  · rw [if_pos ‹_›]
    exact h
  · rw [if_neg ‹_›]
    exact h

/-- A file that was the end of a pipe is closed, and with it that end. -/
theorem Kernel.PipesOk.close (h : t.PipesOk) {w : Bool} {x : File}
    (hf : (t.file f).IsEnd a w) (hx : x.type ≠ .pipe) :
    Kernel.PipesOk { t with
      file := update t.file f x
      pipe := update t.pipe a (File.pipeclose w (t.pipe a))
      frees := t.freesAfter a w } := by
  have hlive : t.Live a := ((h.ends a w).2 ⟨f, hf⟩).1
  have hend : ∀ g b v, (update t.file f x g).IsEnd b v ↔
      (t.file g).IsEnd b v ∧ ¬ (b = a ∧ v = w) := by
    intro g b v
    rcases eq_or_ne g f with rfl | hne
    · rw [update_self]
      refine ⟨fun hc => absurd hc.1 hx, fun hc => absurd ⟨?_, ?_⟩ hc.2⟩
      · exact hc.1.2.1.symm.trans hf.2.1
      · exact hc.1.2.2.symm.trans hf.2.2
    · rw [update_of_ne hne]
      refine ⟨fun hg => ⟨hg, ?_⟩, fun hg => hg.1⟩
      rintro ⟨rfl, rfl⟩
      exact hne (h.unique g f _ _ hg hf)
  have hfrees : t.frees a + 1 = t.freesAfter a w a ∧ endOpen (t.pipe a) (!w) = false ∨
      t.frees a = t.freesAfter a w a ∧ endOpen (t.pipe a) (!w) = true := by
    rw [freesAfter]
    split
    · exact .inl ⟨by rw [update_self], ‹_›⟩
    · exact .inr ⟨rfl, Bool.not_eq_false _ ▸ ‹_›⟩
  have hother : ∀ b, b ≠ a → t.freesAfter a w b = t.frees b := by
    intro b hb
    rw [freesAfter]
    split
    · exact update_of_ne hb _ _
    · rfl
  refine ⟨fun b => ?_, fun b v => ?_, fun g k b v hg hk => ?_, fun b hb => ?_⟩
  · rcases eq_or_ne b a with rfl | hne
    · rcases hfrees with hfrees | hfrees
      · exact .inl (hlive.trans hfrees.1)
      · exact .inr (hlive.trans (congrArg (· + 1) hfrees.1))
    · have hb := h.free_or_live b
      rw [Kernel.Live, ← hother b hne] at hb
      exact hb
  · simp only [hend]
    rw [exists_and_right, ← h.ends b v]
    rcases eq_or_ne b a with rfl | hne
    · simp only [Kernel.Live, update_self, endOpen_pipeclose, true_and]
      have hl : t.allocs b = t.frees b + 1 := hlive
      refine ⟨fun hc => ⟨⟨hl, hc.2.1⟩, hc.2.2⟩, fun hc => ⟨?_, hc.1.2, hc.2⟩⟩
      have hv : v = !w := Bool.eq_not_of_ne hc.2
      rw [hv] at hc
      rcases hfrees with hfrees | hfrees
      · exact absurd (hfrees.2.symm.trans hc.1.2) Bool.false_ne_true
      · omega
    · simp only [Kernel.Live, update_of_ne hne, hother b hne]
      exact ⟨fun hc => ⟨hc, fun hba => hne hba.1⟩, fun hc => hc.1⟩
  · exact h.unique g k b v ((hend g b v).1 hg).1 ((hend k b v).1 hk).1
  · rcases eq_or_ne b a with rfl | hne
    · rcases hfrees with hfrees | hfrees
      · exfalso
        have hc : t.allocs b = t.freesAfter b w b + 1 := hb
        have hl : t.allocs b = t.frees b + 1 := hlive
        omega
      · refine ⟨!w, ?_⟩
        simp only [update_self, endOpen_pipeclose]
        exact ⟨hfrees.2, by simp⟩
    · simp only [update_of_ne hne]
      refine h.some_open b ?_
      rw [Kernel.Live, ← hother b hne]
      exact hb

/-- The table after `pipeinit`. -/
def Kernel.piped (t : Kernel Unit) (f g : Fin NFILE) (a : UInt32) : Kernel Unit :=
  let file := update t.file f { t.file f with
    type := .pipe, readable := true, writable := false, pipe := a }
  { t with
    file := update file g { file g with
      type := .pipe, readable := false, writable := true, pipe := a }
    pipe := update t.pipe a (File.pipealloc (t.pipe a).data)
    allocs := update t.allocs a (t.allocs a + 1) }

theorem Kernel.piped_ref (k : Fin NFILE) : ((t.piped f g a).file k).ref = (t.file k).ref := by
  rcases eq_or_ne k g with rfl | hkg <;> rcases eq_or_ne k f with rfl | hkf <;>
    simp [piped, *]

theorem Kernel.piped_file {k : Fin NFILE} (hkf : k ≠ f) (hkg : k ≠ g) :
    (t.piped f g a).file k = t.file k := by
  simp [piped, hkf, hkg]

/-- Two files without a type become the ends of a new pipe. -/
theorem Kernel.PipesOk.piped (h : t.PipesOk) (hfg : g ≠ f)
    (hf : (t.file f).type = .none) (hg : (t.file g).type = .none) (ha : t.allocs a = t.frees a) :
    (t.piped f g a).PipesOk := by
  have hnot : ¬ t.Live a := fun hc => by
    have hl : t.allocs a = t.frees a + 1 := hc
    omega
  have hend : ∀ k b v, ((t.piped f g a).file k).IsEnd b v ↔
      (t.file k).IsEnd b v ∨ b = a ∧ k = if v then g else f := by
    intro k b v
    rcases eq_or_ne k g with rfl | hkg
    · have hk : (t.piped f k a).file k = { t.file k with
          type := .pipe, readable := false, writable := true, pipe := a } := by
        simp [Kernel.piped, update_of_ne hfg]
      rw [hk]
      cases v <;> simp [File.IsEnd, hg, hfg, eq_comm (a := a) (b := b)]
    rcases eq_or_ne k f with rfl | hkf
    · have hk : (t.piped k g a).file k = { t.file k with
          type := .pipe, readable := true, writable := false, pipe := a } := by
        simp [Kernel.piped, update_of_ne hkg]
      rw [hk]
      cases v <;> simp [File.IsEnd, hf, hkg, eq_comm (a := a) (b := b)]
    · rw [piped_file hkf hkg]
      cases v <;> simp [hkg, hkf]
  have hlive : ∀ b, (t.piped f g a).Live b ↔ t.Live b ∨ b = a := by
    intro b
    rcases eq_or_ne b a with rfl | hne
    · simp [Kernel.Live, Kernel.piped, ha]
    · simp [Kernel.Live, Kernel.piped, hne]
  have hfree : ∀ k v, ¬ (t.file k).IsEnd a v := fun k v hk => hnot ((h.ends a v).2 ⟨k, hk⟩).1
  refine ⟨fun b => ?_, fun b v => ?_, fun k l b v hk hl => ?_, fun b hb => ?_⟩
  · rcases eq_or_ne b a with rfl | hne
    · exact .inr ((hlive b).2 (.inr rfl))
    · rcases h.free_or_live b with hb | hb
      · refine .inl ?_
        simpa [Kernel.piped, update_of_ne hne] using hb
      · exact .inr ((hlive b).2 (.inl hb))
  · rcases eq_or_ne b a with rfl | hne
    · have hopen : endOpen ((t.piped f g b).pipe b) v = true := by
        cases v <;> simp [Kernel.piped, endOpen, File.pipealloc]
      simp only [hlive, hend, hfree, hopen, or_true, true_and, false_or, exists_eq]
    · have hpipe : (t.piped f g a).pipe b = t.pipe b := by
        simp [Kernel.piped, update_of_ne hne]
      simp only [hlive, hend, hpipe, hne, or_false, false_and]
      exact h.ends b v
  · rcases (hend k b v).1 hk with hk | hk <;> rcases (hend l b v).1 hl with hl | hl
    · exact h.unique k l b v hk hl
    · exact absurd (hl.1 ▸ hk) (hfree k v)
    · exact absurd (hk.1 ▸ hl) (hfree l v)
    · exact hk.2.trans hl.2.symm
  · rcases eq_or_ne b a with rfl | hne
    · exact ⟨false, by simp [Kernel.piped, endOpen, File.pipealloc]⟩
    · have hb' : t.Live b := ((hlive b).1 hb).resolve_right hne
      simpa [Kernel.piped, update_of_ne hne] using h.some_open b hb'

/-! ## Routines -/

variable {E : Stop → Prop}

/-- The table after `filealloc`. -/
def Kernel.alloc (t : Kernel Unit) (f : Fin NFILE) : Kernel Unit :=
  { t with file := update t.file f { t.file f with ref := 1 } }

theorem Kernel.alloc_type (t : Kernel Unit) (f g : Fin NFILE) :
    ((t.alloc f).file g).type = (t.file g).type := by
  refine (forall_update_iff t.file fun g x => x.type = (t.file g).type).2 ⟨?_, fun _ _ => rfl⟩ g
  rfl

theorem Kernel.Ok.alloc (h : t.Ok c L hand) (hf : (t.file f).ref = 0) :
    (t.alloc f).Ok c L (hand + one f) := by
  have hset := h.setRef (f := f) (n := 1) (by omega)
  rw [hf, zero_add] at hset
  exact hset

theorem sat_filealloc {Q : Option (Fin NFILE) → Kernel Unit → Prop} (hnone : Q none t)
    (hsome : ∀ f, (t.file f).ref = 0 → Q (some f) (t.alloc f)) : Sat E filealloc t Q := by
  rw [filealloc, sat_get_bind]
  split
  · rename_i f hfind
    have hfree := List.find?_some hfind
    rw [decide_eq_true_eq] at hfree
    exact hsome f hfree
  · exact hnone

theorem sat_fdalloc {Q : Option (Fin NOFILE) → Kernel Unit → Prop} (hnone : Q none t)
    (hsome : ∀ fd, (t.proc p).ofile fd = none → Q (some fd) (t.withDesc p fd (some f))) :
    Sat E (fdalloc p f) t Q := by
  rw [fdalloc, sat_get_bind]
  dsimp only
  split
  · rename_i fd hfind
    have hfree := List.find?_some hfind
    exact hsome fd (Option.isNone_iff_eq_none.1 hfree)
  · exact hnone

theorem sat_argfd {n : Int} {Q : Option (Fin NOFILE × Fin NFILE) → Kernel Unit → Prop}
    (hnone : Q none t) (hsome : ∀ fd f, (t.proc p).ofile fd = some f → Q (some (fd, f)) t) :
    Sat E (argfd p n) t Q := by
  rw [argfd, sat_get_bind, sat_pure]
  split
  · split
    · cases hx : (t.proc p).ofile ⟨n.toNat, ‹_›⟩ with
      | none => exact hnone
      | some f => exact hsome _ f hx
    · exact hnone
  · exact hnone

/-- `filedup` brings one more reference into hand. -/
theorem sat_filedup (h : t.Ok c L hand) (hpos : ¬ (t.file f).ref < 1)
    (hQ : ∀ t', t'.Ok c L (hand + one f) → t'.proc = t.proc → Q () t') :
    Sat E (filedup f) t Q := by
  rw [filedup, sat_get_bind]
  rw [sat_panicIf_bind]
  refine ⟨fun hc => absurd hc hpos, fun _ => hQ _ ?_ rfl⟩
  exact h.setRef (n := 1) (by omega)

/-- The last reference to a file goes, and with it an end of a pipe. -/
theorem Kernel.Ok.last (h : t.Ok c L hand) (hone : (t.file f).ref = 1)
    (ht : (t.file f).type = .pipe) :
    Kernel.Ok c L (hand - one f) { t with
      file := update t.file f { t.file f with ref := 0, type := .none }
      pipe := update t.pipe (t.file f).pipe
        (File.pipeclose (t.file f).writable (t.pipe (t.file f).pipe))
      frees := t.freesAfter (t.file f).pipe (t.file f).writable } := by
  rw [sub_one]
  refine h.setFile (by rw [hone]; rfl) le_rfl (fun _ => rfl) ?_
  exact h.pipes.close ⟨ht, rfl, rfl⟩ (by simp)

/-- The last reference to a file goes that is not the end of a pipe. -/
theorem Kernel.Ok.last_of_ne (h : t.Ok c L hand) (hone : (t.file f).ref = 1)
    (ht : (t.file f).type ≠ .pipe) :
    Kernel.Ok c L (hand - one f) { t with
      file := update t.file f { t.file f with ref := 0, type := .none } } := by
  rw [sub_one]
  refine h.setFile (by rw [hone]; rfl) le_rfl (fun _ => rfl) (h.pipes.setFile fun a w => ?_)
  exact ⟨fun hc => (nomatch hc.1), fun hc => absurd hc.1 ht⟩

/-- `fileclose` takes a reference out of hand. -/
theorem sat_fileclose (h : t.Ok c L hand) (hpos : ¬ (t.file f).ref < 1)
    (hQ : ∀ t', t'.Ok c L (hand - one f) → t'.proc = t.proc → Q () t') :
    Sat E (fileclose f) t Q := by
  rw [fileclose, sat_get_bind]
  rw [sat_panicIf_bind]
  refine ⟨fun hc => absurd hc hpos, fun _ => Sat.ite (fun hlt => hQ _ ?_ rfl) fun hge => ?_⟩
  · rw [sub_one]
    exact h.setRef hlt
  · have hone : (t.file f).ref = 1 := by omega
    rw [modifyFile, sat_modify_bind, fileput]
    cases ht : (t.file f).type with
    | pipe => exact sat_pipeclose (hQ _ (h.last hone ht) rfl)
    | inode | none => exact hQ _ (h.last_of_ne hone (by rw [ht]; nofun)) rfl

/-! ## Calls -/

/-- A reference in hand goes to a free descriptor of the process. -/
theorem Kernel.Ok.give (h : t.Ok c L hand) (hp : L p) (hfd : (t.proc p).ofile fd = none) :
    (t.withDesc p fd (some f)).Ok c L (hand - one f) := by
  have hset : (t.withDesc p fd (some f)).Ok c L _ := h.setDesc (.inl hp)
  rw [hfd] at hset
  simpa only [owned, add_zero] using hset

/-- The process takes back the reference of a descriptor. -/
theorem Kernel.Ok.take (h : t.Ok c L hand) (hx : (t.proc p).ofile fd = some f) :
    (t.withDesc p fd none).Ok c L (hand + one f) := by
  have hset : (t.withDesc p fd none).Ok c L _ := h.setDesc (.inr rfl)
  rw [hx] at hset
  simpa only [owned, sub_zero] using hset

theorem sat_fileclose_bind {α : Type} {m : SysM Unit α} {Q : α → Kernel Unit → Prop}
    (h : t.Ok c L hand) (hpos : 0 < hand f)
    (hm : ∀ t', t'.Ok c L (hand - one f) → t'.proc = t.proc → Sat E m t' Q) :
    Sat E (fileclose f >>= fun _ => m) t Q :=
  sat_bind.2 (sat_fileclose h (h.pos hpos) hm)

/-- `sys_open`, once it has the inode: the descriptor gets the reference, or it is given back. -/
theorem Kernel.Ok.openFile (h : t.Ok c L 0) (hp : L p) (ip : Fin NINODE) (omode : UInt32) :
    Sat E (openFile p ip omode) t fun _ t' => t'.Ok c L 0 := by
  refine sat_bind.2 (sat_filealloc h fun f hf => ?_)
  have hf' := h.alloc hf
  rw [zero_add] at hf'
  refine sat_bind.2 (sat_fdalloc ?_ fun fd hfd => ?_)
  · refine sat_fileclose_bind hf' (one_self_pos f) fun t' ht' _ => ?_
    rw [sub_self] at ht'
    exact ht'
  · have hgive := hf'.give hp hfd (f := f)
    rw [sub_self] at hgive
    have hnone : ((t.alloc f).file f).type = .none := (t.alloc_type f f).trans (h.free f hf)
    have hset := hgive.setFile (f := f) (n := 0)
      (x := { (t.alloc f).file f with
        type := .inode, ip, off := 0, readable := omode &&& O_WRONLY = 0,
        writable := omode &&& O_WRONLY ≠ 0 ∨ omode &&& O_RDWR ≠ 0 })
      (add_zero _).symm (hgive.nonneg f) (fun h0 => absurd h0 (by simp [Kernel.alloc]))
      (hgive.pipes.setFile fun a w =>
        ⟨fun hc => (nomatch hc.1), fun hc => absurd (hnone.symm.trans hc.1) (by simp)⟩)
    rw [Pi.single_zero, add_zero] at hset
    exact hset

/-- `sys_dup` counts the new descriptor. -/
theorem Kernel.Ok.sysDup (h : t.Ok c L 0) (hp : L p) (n : Int) :
    Sat E (sysDup p n) t fun _ t' => t'.Ok c L 0 := by
  refine sat_bind.2 (sat_argfd h fun fd f hf => sat_bind.2 (sat_fdalloc h fun fd' hfd' => ?_))
  have hgive := h.give hp hfd' (f := f)
  refine sat_bind.2 (sat_filedup hgive (h.pos_of_slot hf) fun t' ht' _ => ?_)
  rw [sub_add_cancel] at ht'
  exact ht'

/-- `sys_close` gives up the reference of the descriptor. -/
theorem Kernel.Ok.sysClose (h : t.Ok c L 0) (n : Int) :
    Sat E (sysClose p n) t fun _ t' => t'.Ok c L 0 := by
  refine sat_bind.2 (sat_argfd h fun fd f hf => ?_)
  have htake := h.take hf
  rw [zero_add] at htake
  refine sat_fileclose_bind htake (one_self_pos f) fun t' ht' _ => ?_
  rw [sub_self] at ht'
  exact ht'

/-- Both files of a pipe are closed. -/
theorem Kernel.Ok.closeEnds {α : Type} (h : t.Ok c L (one f + one g)) {Q : α → Kernel Unit → Prop}
    {r : α} (hQ : ∀ t', t'.Ok c L 0 → t'.proc = t.proc → Q r t') :
    Sat E (do
      fileclose f
      fileclose g
      return r) t Q := by
  refine sat_fileclose_bind h ?_ fun t1 h1 ho1 => ?_
  · have hpos := one_self_pos f
    have hnonneg := one_apply_nonneg g f
    rw [Pi.add_apply]
    omega
  rw [add_sub_cancel_left] at h1
  refine sat_fileclose_bind h1 (one_self_pos g) fun t2 h2 ho2 => hQ t2 ?_ (ho2.trans ho1)
  rw [sub_self] at h2
  exact h2

/-- `pipealloc` brings references to both ends into hand, or none. -/
theorem sat_pipealloc (h : t.Ok c L 0) (hE : E .disabled) (page : Option UInt32) :
    Sat E (pipealloc page) t fun r t' => t'.Ok c L (r.elim 0 fun fg => one fg.1 + one fg.2) := by
  rw [pipealloc]
  refine sat_bind.2 (sat_filealloc h fun f hf => ?_)
  have hf' := h.alloc hf
  rw [zero_add] at hf'
  refine sat_bind.2 (sat_filealloc ?_ fun g hg => ?_)
  · refine sat_fileclose_bind hf' (one_self_pos f) fun t' ht' _ => ?_
    rw [sub_self] at ht'
    exact ht'
  have hg' := hf'.alloc hg
  have hgf : g ≠ f := by
    rintro rfl
    simp [Kernel.alloc] at hg
  cases page with
  | none => exact hg'.closeEnds fun _ ht' _ => ht'
  | some a =>
    rw [sat_get_bind, sat_require_bind]
    refine ⟨fun _ => hE, fun ha => ?_⟩
    have hfnone : (((t.alloc f).alloc g).file f).type = .none := by
      rw [Kernel.alloc_type, Kernel.alloc_type, h.free f hf]
    have hgnone : (((t.alloc f).alloc g).file g).type = .none := by
      rw [Kernel.alloc_type, hf'.free g hg]
    refine sat_bind.2 ?_
    change (((t.alloc f).alloc g).piped f g a).Ok c L (one f + one g)
    refine hg'.congr (fun k => Kernel.piped_ref k) (fun k hk => ?_) rfl
      (hg'.pipes.piped hgf hfnone hgnone ha)
    have hkg : k ≠ g := by
      rintro rfl
      simp [Kernel.alloc] at hk
    have hkf : k ≠ f := by
      rintro rfl
      simp [Kernel.alloc, update_of_ne hkg] at hk
    rw [Kernel.piped_file hkf hkg]
    exact hg'.free k hk

/-- `sys_pipe`: both ends get a descriptor, or both files are closed. -/
theorem Kernel.Ok.sysPipe (h : t.Ok c L 0) (hE : E .disabled) (hp : L p) (page : Option UInt32) :
    Sat E (sysPipe p page) t fun _ t' => t'.Ok c L 0 := by
  refine (sat_pipealloc h hE page).bind fun r t1 h1 => ?_
  cases r with
  | none => exact h1
  | some fg =>
    obtain ⟨rf, wf⟩ := fg
    refine sat_bind.2 (sat_fdalloc (h1.closeEnds fun _ ht' _ => ht') fun fd0 hfd0 => ?_)
    have hgive := h1.give hp hfd0 (f := rf)
    refine sat_bind.2 (sat_fdalloc ?_ fun fd1 hfd1 => ?_)
    · have hx : ((t1.withDesc p fd0 (some rf)).proc p).ofile fd0 = some rf := by simp [withDesc]
      have htake := hgive.take hx
      rw [sub_add_cancel] at htake
      exact htake.closeEnds fun _ ht' _ => ht'
    · have hgive' := hgive.give hp hfd1 (f := wf)
      simp only [Option.elim_some, add_sub_cancel_left, sub_self] at hgive'
      exact hgive'

/-- A new process gets a reference with each descriptor of its parent. -/
theorem Kernel.Ok.forkFiles {np : Fin NPROC} (h : t.Ok c L 0) (hL : L np)
    (hnp : ∀ fd, (t.proc np).ofile fd = none) : Sat E (forkFiles p np) t fun _ t' => t'.Ok c L 0 := by
  refine (Sat.forM (I := fun done (t : Kernel Unit) => t.Ok c L 0 ∧
    ∀ fd ∉ done, (t.proc np).ofile fd = none) (fun pre fd post t hl ht => ?_)
    ⟨h, fun fd _ => hnp fd⟩).weaken fun _ t' ht' => ht'.1
  obtain ⟨ht, hrest⟩ := ht
  have hfd : fd ∉ pre := by
    have hnodup := hl ▸ List.nodup_finRange NOFILE
    exact fun hc => (List.nodup_append.1 hnodup).2.2 fd hc fd List.mem_cons_self rfl
  rw [sat_get_bind]
  cases hx : (t.proc p).ofile fd with
  | none => exact ⟨ht, fun fd' hfd' => hrest fd' fun hc => hfd' (by simp [hc])⟩
  | some f =>
    refine sat_bind.2 (sat_filedup ht (ht.pos_of_slot hx) fun t1 h1 ho1 => ?_)
    have hgive := h1.give hL (ho1 ▸ hrest fd hfd) (f := f)
    rw [add_sub_cancel_right] at hgive
    refine ⟨hgive, fun fd' hfd' => ?_⟩
    rw [List.mem_append, List.mem_singleton, not_or] at hfd'
    change (t1.withDesc np fd (some f)).desc (np, fd') = none
    rw [desc_withDesc, update_of_ne fun hc => hfd'.2 (congrArg Prod.snd hc), desc, ho1]
    exact hrest fd' hfd'.1

theorem sat_cwdOf_unit {Q : Fin NINODE → Kernel Unit → Prop} (hE : E .disabled)
    (hQ : ∀ e, (t.proc p).cwd = some e → Q e t) : Sat E (cwdOf p) t Q := by
  rw [cwdOf, sat_get_bind]
  split
  · exact hQ _ ‹_›
  · exact hE

/-- `fork` counts the descriptors of the new process. -/
theorem Kernel.Counted.fork (h : t.Counted) (hE : E .disabled) (np : Fin NPROC) :
    Sat E (fork p np) t fun _ t' => t'.Counted := by
  obtain ⟨c, h⟩ := h
  refine sat_bind.2 (sat_cwdOf_unit hE fun e _ => sat_get_bind.2 (sat_require_bind.2 ⟨fun _ => hE, ?_⟩))
  intro hnp
  have hfree (fd : Fin NOFILE) : (t.proc np).ofile fd = none :=
    h.dead np fd (not_not.2 ((h.cwd np).symm.trans hnp))
  -- the new process gets its files before its directory
  have hnew : t.Ok c (fun q => c q ≠ none ∨ q = np) 0 :=
    { h with dead := fun q fd hq => h.dead q fd fun hc => hq (.inl hc) }
  refine (hnew.forkFiles (.inr rfl) hfree).bind fun _ t1 h1 => ⟨_, h1.setCwd fun q fd hq => ?_⟩
  rcases eq_or_ne q np with rfl | hne
  · rw [update_self] at hq
    cases hq
  · rw [update_of_ne hne] at hq
    exact h1.dead q fd fun hc => hc.elim (absurd hq) hne

/-- A process that exits gives up the reference of each of its descriptors. -/
theorem Kernel.Ok.exitFiles (h : t.Ok c L 0) : Sat E (exitFiles p) t fun _ t' =>
    t'.Ok c L 0 ∧ ∀ fd, (t'.proc p).ofile fd = none := by
  refine (Sat.forM (I := fun done (t : Kernel Unit) => t.Ok c L 0 ∧
    ∀ fd ∈ done, (t.proc p).ofile fd = none)
    (fun pre fd post t hl ht => ?_) ⟨h, fun _ hc => (nomatch hc)⟩).weaken
    fun _ t' ht' => ⟨ht'.1, fun fd => ht'.2 fd (List.mem_finRange fd)⟩
  obtain ⟨ht, hdone⟩ := ht
  rw [sat_get_bind]
  cases hx : (t.proc p).ofile fd with
  | none =>
    refine ⟨ht, fun fd' hfd' => ?_⟩
    rw [List.mem_append, List.mem_singleton] at hfd'
    exact hfd'.elim (hdone fd') fun hc => hc ▸ hx
  | some f =>
    refine sat_bind.2 (sat_fileclose ht (ht.pos_of_slot hx) fun t1 h1 ho1 => ?_)
    have htake := h1.take (ho1 ▸ hx : (t1.proc p).ofile fd = some f)
    rw [sub_add_cancel] at htake
    refine ⟨htake, fun fd' hfd' => ?_⟩
    rw [List.mem_append, List.mem_singleton] at hfd'
    change (t1.withDesc p fd none).desc (p, fd') = none
    rw [desc_withDesc]
    rcases eq_or_ne fd' fd with rfl | hne
    · rw [update_self]
    · rw [update_of_ne fun hc => hne (congrArg Prod.snd hc), desc, ho1]
      exact hdone fd' (hfd'.resolve_right hne)

/-- `exit` leaves a process without descriptors. -/
theorem Kernel.Counted.exit (h : t.Counted) (hE : E .disabled)
    (hE' : p = t.initproc → E (.panic "init exiting")) :
    Sat E (exit p) t fun _ t' => t'.Counted := by
  obtain ⟨c, h⟩ := h
  refine sat_get_bind.2 (sat_panicIf_bind.2 ⟨hE', fun _ => sat_bind.2 (sat_cwdOf_unit hE ?_)⟩)
  refine fun e _ => h.exitFiles.bind fun _ t1 h1 => ⟨_, h1.1.setCwd fun q fd hq => ?_⟩
  rcases eq_or_ne q p with rfl | hne
  · exact h1.2 fd
  · rw [update_of_ne hne] at hq
    exact h1.1.dead q fd (not_not.2 hq)

/-- Some descriptor holds an end of the pipe in a page. -/
def Kernel.Piped (k : Kernel Unit) (a : UInt32) : Prop :=
  ∃ p fd f, (k.proc p).ofile fd = some f ∧ (k.file f).type = .pipe ∧ (k.file f).pipe = a

/-- Between calls a pipe is in memory as long as a descriptor holds one of its ends. -/
theorem Kernel.Ok.live_iff (h : t.Ok c L 0) (a : UInt32) : t.Live a ↔ t.Piped a := by
  constructor
  · intro ha
    obtain ⟨w, hw⟩ := h.pipes.some_open a ha
    obtain ⟨f, hf⟩ := (h.pipes.ends a w).1 ⟨ha, hw⟩
    have href : (t.file f).ref ≠ 0 := fun h0 =>
      nomatch (h.free f h0).symm.trans hf.1
    have hcount := h.count f
    have hslots : 0 < t.slots f := by
      rw [Pi.zero_apply] at hcount
      omega
    obtain ⟨x, hx⟩ := (card_filter_pos fun x => t.desc x = some f).1 hslots
    exact ⟨x.1, x.2, f, hx, hf.1, hf.2.1⟩
  · rintro ⟨p, fd, f, -, ht, ha⟩
    exact ((h.pipes.ends a (t.file f).writable).2 ⟨f, ht, ha, rfl⟩).1

end

theorem Kernel.Counted.start (pipe : UInt32 → Pipe) (initproc : Fin NPROC) :
    (Kernel.start () pipe initproc).Counted := by
  refine ⟨_, fun f => ?_, fun f => le_rfl, fun f _ => rfl, ⟨fun a => .inl rfl, fun a w => ?_, ?_, ?_⟩,
    fun _ => rfl, fun p fd _ => rfl⟩
  · simp [Kernel.start, slots, desc]
  · exact ⟨fun hc => (nomatch hc.1), fun ⟨_, hc⟩ => (nomatch hc.1)⟩
  · exact fun f g a w hf _ => nomatch hf.1
  · exact fun a hc => nomatch hc

end TronBoss.Fs

namespace TronBoss.Ftable

open Lib Fs

/-- A call, with its arguments as fetched and with what it finds outside of the table: the inode to
open, a page, a slot for a process. -/
inductive Call where
  | open (ip : Option (Fin NINODE)) (omode : UInt32)
  | dup (fd : Int)
  | pipe (page : Option UInt32)
  | close (fd : Int)
  | fork (np : Option (Fin NPROC))
  | exit

/-- The call, made by a process that runs. -/
def Call.run (p : Fin NPROC) (call : Call) : SysM Unit Int := do
  let _ ← cwdOf p
  match call with
  | .open none _ => return -1
  | .open (some ip) omode => openFile p ip omode
  | .dup fd => sysDup p fd
  | .pipe page => sysPipe p page
  | .close fd => sysClose p fd
  | .fork none => return -1
  | .fork (some np) => Fs.fork p np
  | .exit => Fs.exit p

/-- The states between completed calls, made in any order and by any processes. -/
inductive Reachable (t₀ : Kernel Unit) : Kernel Unit → Prop where
  | init : Reachable t₀ t₀
  | step {t t' : Kernel Unit} {p : Fin NPROC} {call : Call} {ret : Int} :
    Reachable t₀ t → call.run p t = .ok (ret, t') → Reachable t₀ t'

/-- The only ways in which a call does not return: the process may not make it now, or it is
`initproc` and exits. -/
def Call.Stops (p : Fin NPROC) (call : Call) (t : Kernel Unit) (e : Stop) : Prop :=
  e = .disabled ∨ call = .exit ∧ p = t.initproc ∧ e = .panic "init exiting"

/-- One call keeps the accounts and does not panic. -/
theorem Call.keeps {t : Kernel Unit} (h : t.Counted) (p : Fin NPROC) (call : Call) :
    Sat (call.Stops p t) (call.run p) t fun _ t' => t'.Counted := by
  have hE : call.Stops p t .disabled := .inl rfl
  obtain ⟨c, hc⟩ := id h
  refine sat_bind.2 (sat_cwdOf_unit hE fun e he => ?_)
  have hp : c p ≠ none := by
    rw [← hc.cwd, he]
    nofun
  cases call with
  | «open» ip omode =>
    cases ip with
    | none => exact h
    | some ip => exact (hc.openFile hp ip omode).weaken fun _ _ h' => ⟨c, h'⟩
  | dup fd => exact (hc.sysDup hp fd).weaken fun _ _ h' => ⟨c, h'⟩
  | pipe page => exact (hc.sysPipe hE hp page).weaken fun _ _ h' => ⟨c, h'⟩
  | close fd => exact (hc.sysClose fd).weaken fun _ _ h' => ⟨c, h'⟩
  | fork np =>
    cases np with
    | none => exact h
    | some np => exact h.fork hE np
  | exit => exact h.exit hE fun hp => .inr ⟨rfl, hp, rfl⟩

/-- Runs of calls keep the accounts. -/
theorem Reachable.counted {t₀ t : Kernel Unit} (h₀ : t₀.Counted) (ht : Reachable t₀ t) :
    t.Counted := by
  induction ht with
  | init => exact h₀
  | @step t t' p call ret _ hrun ih => exact (Call.keeps ih p call).of_ok hrun

open Classical in
/-- Between calls the reference count of a file is the number of descriptors that hold it, a file
without a reference has no type, and a page was freed as often as it was made a pipe, but for the
pipe in it that descriptors still hold. No call panics, but for an exit of `initproc`. -/
theorem file_refs_counted {pipe : UInt32 → File.Pipe} {initproc : Fin NPROC} {t : Kernel Unit}
    (ht : Reachable (Kernel.start () pipe initproc) t) :
    (∀ f, (t.file f).ref = t.slots f) ∧
    (∀ f, (t.file f).ref = 0 → (t.file f).type = .none) ∧
    (∀ a, t.allocs a = t.frees a + if t.Piped a then 1 else 0) ∧
    ∀ p (call : Call) e, call.run p t = .error e → call.Stops p t e := by
  have hc := ht.counted (Kernel.Counted.start pipe initproc)
  obtain ⟨c, h⟩ := id hc
  refine ⟨fun f => ?_, h.free, fun a => ?_, fun p call e he => (Call.keeps hc p call).of_error he⟩
  · rw [h.count f, Pi.zero_apply, add_zero]
  · split
    · exact (h.live_iff a).2 ‹_›
    · exact (h.pipes.free_or_live a).resolve_right fun hl => absurd ((h.live_iff a).1 hl) ‹_›

/-- What a list of calls reaches. -/
theorem Reachable.run {t₀ t t' : Kernel Unit} {calls : List (Fin NPROC × Call)} (h : Reachable t₀ t)
    (hr : calls.foldlM (fun t x => Prod.snd <$> x.2.run x.1 t) t = .ok t') : Reachable t₀ t' := by
  refine foldlM_keeps (fun {t x t'} _ h ht => ?_) h hr
  obtain ⟨⟨ret, t1⟩, ht1, rfl⟩ : ∃ y, x.2.run x.1 t = .ok y ∧ y.2 = t' := by
    cases hx : x.2.run x.1 t with
    | error e => rw [hx] at ht; cases ht
    | ok y => rw [hx] at ht; cases ht; exact ⟨y, rfl, rfl⟩
  exact h.step ht1

/-- A process makes a pipe and forks; the child exits, and the parent closes the read end. -/
def forkRun : List (Fin NPROC × Call) :=
  let p : Fin NPROC := ⟨0, NPROC_pos⟩
  let c : Fin NPROC := ⟨1, by decide⟩
  [(p, .pipe (some 4096)), (p, .fork (some c)), (c, .exit), (p, .close 0)]

/-- The pipe stays for the descriptor of the parent, and closing it frees the page. -/
theorem file_refs_counted_forkRun : ∃ t t',
    Reachable (Kernel.start () (fun _ => File.freePage) ⟨0, by decide⟩) t ∧
    Call.run ⟨0, by decide⟩ (.close 1) t = .ok (0, t') ∧ (∀ f, (t.file f).ref = t.slots f) ∧
    t.Piped 4096 ∧ t.frees 4096 = 0 ∧ t'.frees 4096 = 1 := by
  have hrun : ((forkRun.foldlM (fun t (x : Fin NPROC × Call) => Prod.snd <$> x.2.run x.1 t)
      (Kernel.start () (fun _ => File.freePage) ⟨0, by decide⟩)).toOption.any fun t =>
        decide (t.allocs 4096 = 1 ∧ t.frees 4096 = 0 ∧
        (Call.run ⟨0, by decide⟩ (.close 1) t).toOption.any
          fun r => decide (r.1 = 0 ∧ r.2.frees 4096 = 1))) = true := by
    decide +kernel
  obtain ⟨t, ht, hf⟩ := exists_ok hrun
  obtain ⟨halloc, hfrees, hclose⟩ := of_decide_eq_true hf
  obtain ⟨⟨r, t'⟩, ht', hr⟩ := exists_ok hclose
  obtain ⟨rfl, hfrees'⟩ := of_decide_eq_true hr
  have hreach := Reachable.init.run ht
  obtain ⟨href, -, hpipe, -⟩ := file_refs_counted hreach
  refine ⟨t, t', hreach, ht', href, ?_, hfrees, hfrees'⟩
  have hpage := hpipe 4096
  rw [halloc, hfrees] at hpage
  split at hpage
  · assumption
  · cases hpage

end TronBoss.Ftable
