import TronBoss.Proc.BootSpec
import TronBoss.Proc.PrioritySpec
import TronBoss.Proc.System

/-!
# The process lists in every reachable state

`Sys.Inv` adds to the list invariant of the table what the sections assume about their caller: a
processor runs a process that is `RUNNING`, no two processors run the same one, and the slot that a
`fork` is filling is an embryo that no other `fork` is filling. `Sys.Trans s a s'` lists the steps by
their effect on the process fields, on the processors and on the lock, with the links of the new table
left open. From a state that satisfies `Sys.Inv` a step either is not enabled, or is the exit of
`initproc`, or has one of these effects and keeps the invariant (`Sys.Inv.step`), which excludes every
panic of the list code.
-/

namespace TronBoss

open Lib Function

/-- What holds between two steps of the machine. -/
structure Sys.Inv (s : Sys) : Prop where
  table : s.t.Inv
  running : ∀ c p b, s.cpu c = .run p b → (s.t.proc p).state = .running
  one : ∀ c c' p b b', s.cpu c = .run p b → s.cpu c' = .run p b' → c = c'
  embryo : ∀ p np, (s.cont p).embryo? = some np → (s.t.proc np).state = .embryo
  owner : ∀ p p' np, (s.cont p).embryo? = some np → (s.cont p').embryo? = some np → p = p'

/-- The table with other process fields and links. -/
def PTable.put (t : PTable) (proc : Slot → Proc) (k : Links) : PTable :=
  { t with proc := proc, links := k }

section
variable (t : PTable) (proc : Slot → Proc) (k : Links)

@[simp] theorem PTable.put_proc : (t.put proc k).proc = proc := rfl

@[simp] theorem PTable.put_promoteAtTime : (t.put proc k).promoteAtTime = t.promoteAtTime := rfl

@[simp] theorem PTable.put_initproc : (t.put proc k).initproc = t.initproc := rfl

@[simp] theorem PTable.put_ticks : (t.put proc k).ticks = t.ticks := rfl

end

/-- The table once the scheduler has looked at its deadline, up to priorities. -/
def PTable.looked (t : PTable) : PTable :=
  { t with promoteAtTime :=
      if t.promoteAtTime = t.ticks then t.ticks + TICKS_TO_PROMOTE else t.promoteAtTime }

/-- A process may start or go on with `wait`. -/
def Sys.MayWait (s : Sys) (c : Fin NCPU) (p : Slot) : Prop :=
  s.lock = none ∧ s.cont p = .other ∨ s.lock = some c ∧ s.cont p = .wait

/-- The effect of a step. -/
inductive Sys.Trans (s : Sys) : Act → Sys → Prop
  | forkFull {c p b} (hc : s.cpu c = .run p b) (hl : s.lock = none) (ho : s.cont p = .other) :
    Trans s (.fork c) s
  | fork {c p b np} (k : Links) (hc : s.cpu c = .run p b) (hl : s.lock = none)
      (ho : s.cont p = .other) (hnp : (s.t.proc np).state = .unused) :
    Trans s (.fork c) { s.setCont p (.alloc np) with
      t := { s.t.put (update s.t.proc np
              { s.t.proc np with state := .embryo, pid := s.t.nextpid }) k with
        nextpid := s.t.nextpid + 1 } }
  | forkStack {c p b np} (hc : s.cpu c = .run p b) (hp : s.cont p = .alloc np) :
    Trans s (.forkStack c true) { s.setCont p (.fork np) with t := allocprocInit np s.t }
  | forkImage {c p b np} (hc : s.cpu c = .run p b) (hp : s.cont p = .fork np) :
    Trans s (.forkImage c true) { s.setCont p (.copied np) with t := forkCopy p np s.t }
  | forkFail {a c p b np} (k : Links) (hc : s.cpu c = .run p b) (hl : s.lock = none)
      (hp : a = .forkStack c false ∧ s.cont p = .alloc np ∨
        a = .forkImage c false ∧ s.cont p = .fork np) :
    Trans s a { s.setCont p .other with
      t := s.t.put (update s.t.proc np { s.t.proc np with state := .unused }) k }
  | forkDone {c p b np} (k : Links) (hc : s.cpu c = .run p b) (hl : s.lock = none)
      (hp : s.cont p = .copied np) :
    Trans s (.forkDone c) { s.setCont p .other with
      t := s.t.put (update s.t.proc np { s.t.proc np with state := .runnable }) k }
  | exit {c p b} (k : Links) (hc : s.cpu c = .run p b) (hl : s.lock = none)
      (ho : s.cont p = .other) (hi : some p ≠ s.t.initproc) :
    Trans s (.exit c) (Sys.swtch { s with
      t := s.t.put (update (exitProcs p s.t.initproc s.t.proc) p
        ((exitProcs p s.t.initproc s.t.proc p).exited s.t.ticks)) k } c b)
  | reap {c p b z} (k : Links) (hc : s.cpu c = .run p b) (hw : s.MayWait c p)
      (hz : (s.t.proc z).state = .zombie) (hpar : (s.t.proc z).parent = some p)
      (heq : wait p s.t = .ok (.ret (s.t.proc z).pid.toInt32,
        s.t.put (update s.t.proc z (s.t.proc z).reaped) k)) :
    Trans s (.wait c) { s.setCont p .other with
      t := s.t.put (update s.t.proc z (s.t.proc z).reaped) k, lock := none }
  | waitFail {c p b} (hc : s.cpu c = .run p b) (hw : s.MayWait c p)
      (heq : wait p s.t = .ok (.ret (-1), s.t)) :
    Trans s (.wait c) { s.setCont p .other with lock := none }
  | waitSleep {c p b} (k : Links) (hc : s.cpu c = .run p b) (hw : s.MayWait c p)
      (hno : ∀ z, (s.t.proc z).state = .zombie → (s.t.proc z).parent ≠ some p) :
    Trans s (.wait c) (Sys.swtch { s.setCont p .wait with
      t := s.t.put (update s.t.proc p ((s.t.proc p).slept s.t.ticks (.proc p))) k } c b)
  | yield {c p b} (k : Links) (hc : s.cpu c = .run p b) (hl : s.lock = none) :
    Trans s (.yield c) (Sys.swtch { s with
      t := s.t.put (update s.t.proc p ((s.t.proc p).yielded s.t.ticks)) k } c b)
  | sleep {c p b} {chan : Chan} (k : Links) (hc : s.cpu c = .run p b) (hl : s.lock = none)
      (ho : s.cont p = .other) :
    Trans s (.sleep c chan) (Sys.swtch { s.setCont p .asleep with
      t := s.t.put (update s.t.proc p ((s.t.proc p).slept s.t.ticks chan)) k } c b)
  | wakeup {chan : Chan} (k : Links) (hl : s.lock = none) :
    Trans s (.wakeup chan) { s with t := s.t.put (fun q => (s.t.proc q).woken chan) k }
  | kill {c p b pid} {found : Option Slot} (k : Links) (hc : s.cpu c = .run p b)
      (hl : s.lock = none) (ho : s.cont p = .other)
      (hf : ∀ q ∈ found, (s.t.proc q).pid = pid.toUInt32 ∧ (s.t.proc q).state ≠ .unused) :
    Trans s (.kill c pid) { s with t := s.t.put (killedProcs s.t.proc found) k }
  | setpriority {c p b pid priority} {t : PTable} (hc : s.cpu c = .run p b) (hl : s.lock = none)
      (ho : s.cont p = .other) (hr : Reprioritized s.t t) :
    Trans s (.setpriority c pid priority) { s with t := t }
  | fault {c p b} (hc : s.cpu c = .run p b) (ho : s.cont p = .other) :
    Trans s (.fault c) { s with t := s.t.modProc p fun q => { q with killed := true } }
  | enter {c} (hc : s.cpu c = .idle) (hl : s.lock = none) :
    Trans s (.enter c) { s.setCpu c (.loop 0) with lock := some c }
  | advance {c i} {t : PTable} (hc : s.cpu c = .loop i) (hl : s.lock = some c)
      (hr : Reprioritized s.t.looked t) (hi : i.val + 1 < MAX + 1) :
    Trans s (.turn c) { s.setCpu c (.loop ⟨i.val + 1, hi⟩) with t := t }
  | pass {c i} {t : PTable} (hc : s.cpu c = .loop i) (hl : s.lock = some c)
      (hr : Reprioritized s.t.looked t) :
    Trans s (.turn c) { s.setCpu c .idle with t := t, lock := none }
  | dispatch {c i p} {t : PTable} (k : Links) (hc : s.cpu c = .loop i) (hl : s.lock = some c)
      (hr : Reprioritized s.t.looked t) (hp : (t.proc p).state = .runnable) :
    Trans s (.turn c) (Sys.resume { s with
      t := t.put (update t.proc p
        { t.proc p with state := .running, cpuTicksIn := t.ticks }) k } c p (i = Fin.last MAX))
  | tick : Trans s .tick { s with t := { s.t with ticks := s.t.ticks + 1 } }

/-- A step that is not enabled, the exit of `initproc`, or a step with one of the effects that keeps the
invariant. -/
def Sys.Safe (s : Sys) (a : Act) : Except Stop Sys → Prop
  | .ok s' => s'.Inv ∧ s.Trans a s'
  | .error e => e = .disabled ∨ e = .panic "init exiting"

section
variable {s : Sys} {a : Act} {c : Fin NCPU} {p np : Slot} {b : Bool} {t : PTable}

theorem Sys.Safe.require {q : Prop} [Decidable q] {f : Unit → Except Stop Sys}
    (h : q → s.Safe a (f ())) : s.Safe a (require q >>= f) := by
  by_cases hq : q
  · rw [require_pos hq]
    exact h hq
  · rw [Lib.require, if_neg hq]
    exact .inl rfl

theorem Sys.Safe.current {f : Slot × Bool → Except Stop Sys}
    (h : ∀ p b, s.cpu c = .run p b → s.Safe a (f (p, b))) : s.Safe a (s.current c >>= f) := by
  unfold Sys.current
  cases hc : s.cpu c with
  | run p b => exact h p b hc
  | idle | loop i => exact .inl rfl

/-! ## The kinds of steps -/

/-- A change of the table that keeps the states that the processors and the forks rely on. -/
theorem Sys.Inv.setTable (h : s.Inv) (ht : t.Inv)
    (hr : ∀ c p b, s.cpu c = .run p b → (t.proc p).state = .running)
    (he : ∀ p np, (s.cont p).embryo? = some np → (t.proc np).state = .embryo)
    (k : Option (Fin NCPU)) : Sys.Inv { s with t := t, lock := k } :=
  ⟨ht, hr, h.one, he, h.owner⟩

/-- A change of the table that keeps the state of every process that runs or is an embryo. -/
theorem Sys.Inv.keep (h : s.Inv) (ht : t.Inv)
    (hs : ∀ q, (s.t.proc q).state = .running ∨ (s.t.proc q).state = .embryo →
      (t.proc q).state = (s.t.proc q).state)
    (k : Option (Fin NCPU)) : Sys.Inv { s with t := t, lock := k } := by
  refine h.setTable ht (fun c p b hc => ?_) (fun p np hp => ?_) k
  · have hp := h.running c p b hc
    rw [hs p (.inl hp), hp]
  · have hnp := h.embryo p np hp
    rw [hs np (.inr hnp), hnp]

/-- A change of the table that only wakes processes. -/
theorem Sys.Inv.wakes (h : s.Inv) (ht : t.Inv) (hw : WakesOnly s.t t) : Sys.Inv { s with t := t } :=
  h.keep ht (fun q hq => hw.state_eq (by rcases hq with hq | hq <;> simp [hq])) s.lock

/-- A process goes on inside a routine with the embryo it had, if any. -/
theorem Sys.Inv.setCont {x : Cont} (h : s.Inv) (hx : x.embryo? = (s.cont p).embryo?) :
    (s.setCont p x).Inv := by
  have hc : ∀ q, ((s.setCont p x).cont q).embryo? = (s.cont q).embryo? := by
    intro q
    by_cases e : q = p
    · simp [Sys.setCont, e, hx]
    · simp [Sys.setCont, update_of_ne e]
  refine ⟨h.table, h.running, h.one, fun q np hq => ?_, fun q q' np hq hq' => ?_⟩
  · exact h.embryo q np (by rwa [hc] at hq)
  · exact h.owner q q' np (by rwa [hc] at hq) (by rwa [hc] at hq')

/-- What a processor that does not run a process leaves to the others. -/
theorem Sys.setCpu_run {x : CpuState} {c' : Fin NCPU} (hx : ∀ q b, x ≠ .run q b)
    (h : (s.setCpu c x).cpu c' = .run p b) : c' ≠ c ∧ s.cpu c' = .run p b := by
  by_cases e : c' = c
  · simp only [setCpu, e, update_self] at h
    exact absurd h (hx p b)
  · exact ⟨e, by simpa only [setCpu, update_of_ne e] using h⟩

/-- A processor is in the scheduler after the step. -/
theorem Sys.Inv.setCpu {x : CpuState} (h : s.Inv) (hx : ∀ q b, x ≠ .run q b) :
    (s.setCpu c x).Inv :=
  ⟨h.table, fun c' q b' hr => h.running c' q b' (s.setCpu_run hx hr).2,
    fun c1 c2 q b1 b2 h1 h2 =>
      h.one c1 c2 q b1 b2 (s.setCpu_run hx h1).2 (s.setCpu_run hx h2).2,
    h.embryo, h.owner⟩

/-- A process gives up the processor: its own state is free to change, and the others are only
woken. -/
theorem Sys.Inv.leave (h : s.Inv) (hc : s.cpu c = .run p b) (ht : t.Inv)
    (hw : ∀ q, q ≠ p → (t.proc q).state = (s.t.proc q).state ∨
      (s.t.proc q).state = .sleeping ∧ (t.proc q).state = .runnable) :
    (Sys.swtch { s with t := t } c b).Inv := by
  have keep : ∀ q, q ≠ p → (s.t.proc q).state ≠ .sleeping →
      (t.proc q).state = (s.t.proc q).state := fun q hq hs =>
    (hw q hq).resolve_right fun h' => hs h'.1
  have hI : ∀ x k, (∀ q b, x ≠ CpuState.run q b) →
      Sys.Inv { Sys.setCpu { s with t := t } c x with lock := k } := by
    intro x k hx
    refine (h.setCpu hx).setTable ht (fun c' q b' hr => ?_) (fun q np hq => ?_) k
    · obtain ⟨hne, hr⟩ := s.setCpu_run hx hr
      have hq : q ≠ p := by
        rintro rfl
        exact hne (h.one _ _ _ _ _ hr hc)
      have hs := h.running c' q b' hr
      exact (keep q hq (by simp [hs])).trans hs
    · have hs := h.embryo q np hq
      have hne : np ≠ p := by
        rintro rfl
        rw [h.running c np b hc] at hs
        cases hs
      exact (keep np hne (by simp [hs])).trans hs
  unfold swtch
  split
  · exact hI _ _ nofun
  · exact hI _ _ nofun

/-- The scheduler makes a runnable process the one that its processor runs. -/
theorem Sys.Inv.arrive (h : s.Inv) (ht : t.Inv) (hp : (s.t.proc p).state = .runnable)
    (hr : (t.proc p).state = .running)
    (hq : ∀ q, q ≠ p → (t.proc q).state = (s.t.proc q).state) :
    (Sys.setCpu { s with t := t } c (.run p b)).Inv := by
  -- no processor ran `p` before
  have hnot : ∀ c' b', s.cpu c' ≠ .run p b' := by
    intro c' b' hc'
    rw [h.running c' p b' hc'] at hp
    cases hp
  have hcpu : ∀ c' q b', (Sys.setCpu { s with t := t } c (.run p b)).cpu c' = .run q b' →
      c' = c ∧ q = p ∨ s.cpu c' = .run q b' := by
    intro c' q b' hc'
    by_cases e : c' = c
    · simp only [Sys.setCpu, e, update_self, CpuState.run.injEq] at hc'
      exact .inl ⟨e, hc'.1.symm⟩
    · exact .inr (by simpa only [Sys.setCpu, update_of_ne e] using hc')
  refine ⟨ht, fun c' q b' hc' => ?_, fun c1 c2 q b1 b2 h1 h2 => ?_, fun q np hc' => ?_, h.owner⟩
  · rcases hcpu c' q b' hc' with ⟨-, rfl⟩ | hold
    · exact hr
    · have hne : q ≠ p := by
        rintro rfl
        exact hnot _ _ hold
      exact (hq q hne).trans (h.running c' q b' hold)
  · rcases hcpu c1 q b1 h1 with ⟨rfl, rfl⟩ | h₁' <;> rcases hcpu c2 q b2 h2 with ⟨rfl, e⟩ | h₂'
    · rfl
    · exact absurd h₂' (hnot _ _)
    · exact absurd (e ▸ h₁') (hnot _ _)
    · exact h.one c1 c2 q b1 b2 h₁' h₂'
  · have hs := h.embryo q np hc'
    have hne : np ≠ p := by
      rintro rfl
      rw [hp] at hs
      cases hs
    exact (hq np hne).trans hs

/-- A `fork` gets a slot that was unused. -/
theorem Sys.Inv.getEmbryo {x : Cont} (h : s.Inv) (ht : t.Inv) (hx : x.embryo? = some np)
    (hnp : (s.t.proc np).state = .unused) (hnp' : (t.proc np).state = .embryo)
    (hq : ∀ q, q ≠ np → (t.proc q).state = (s.t.proc q).state) :
    Sys.Inv { s.setCont p x with t := t } := by
  -- no `fork` was filling the slot
  have hnot : ∀ q, (s.cont q).embryo? ≠ some np := by
    intro q hq'
    rw [h.embryo q np hq'] at hnp
    cases hnp
  have hcont : ∀ q np', ((s.setCont p x).cont q).embryo? = some np' →
      q = p ∧ np' = np ∨ (s.cont q).embryo? = some np' := by
    intro q np' hc
    by_cases e : q = p
    · simp only [Sys.setCont, e, update_self, hx, Option.some_inj] at hc
      exact .inl ⟨e, hc.symm⟩
    · exact .inr (by simpa only [Sys.setCont, update_of_ne e] using hc)
  refine ⟨ht, fun c' q b' hc' => ?_, h.one, fun q np' hc => ?_, fun q q' np' hc hc' => ?_⟩
  · have hs := h.running c' q b' hc'
    have hne : q ≠ np := by
      rintro rfl
      rw [hnp] at hs
      cases hs
    exact (hq q hne).trans hs
  · rcases hcont q np' hc with ⟨-, rfl⟩ | hold
    · exact hnp'
    · have hne : np' ≠ np := by
        rintro rfl
        exact hnot _ hold
      exact (hq np' hne).trans (h.embryo q np' hold)
  · rcases hcont q np' hc with ⟨rfl, rfl⟩ | h1 <;> rcases hcont q' np' hc' with ⟨rfl, e⟩ | h2
    · rfl
    · exact absurd h2 (hnot _)
    · exact absurd (e ▸ h1) (hnot _)
    · exact h.owner q q' np' h1 h2

/-- A `fork` is done with its slot, which then may have any state. -/
theorem Sys.Inv.dropEmbryo {x : Cont} (h : s.Inv) (hp : (s.cont p).embryo? = some np)
    (hx : x.embryo? = none) (ht : t.Inv)
    (hq : ∀ q, q ≠ np → (t.proc q).state = (s.t.proc q).state) :
    Sys.Inv { s.setCont p x with t := t } := by
  have hcont : ∀ q np', ((s.setCont p x).cont q).embryo? = some np' →
      q ≠ p ∧ (s.cont q).embryo? = some np' := by
    intro q np' hc
    by_cases e : q = p
    · simp [Sys.setCont, e, hx] at hc
    · exact ⟨e, by simpa only [Sys.setCont, update_of_ne e] using hc⟩
  refine ⟨ht, fun c' q b' hc' => ?_, h.one, fun q np' hc => ?_, fun q q' np' hc hc' => ?_⟩
  · have hs := h.running c' q b' hc'
    have hne : q ≠ np := by
      rintro rfl
      rw [h.embryo p q hp] at hs
      cases hs
    exact (hq q hne).trans hs
  · obtain ⟨hne, hc⟩ := hcont q np' hc
    have hne' : np' ≠ np := by
      rintro rfl
      exact hne (h.owner q p np' hc hp)
    exact (hq np' hne').trans (h.embryo q np' hc)
  · exact h.owner q q' np' (hcont q np' hc).2 (hcont q' np' hc').2

/-- A resumed process runs, with the state and the embryo it had. -/
theorem Sys.Inv.resume (h : (s.setCpu c (.run p b)).Inv) : (s.resume c p b).Inv := by
  have hmod : ∀ k, Sys.Inv { s.setCpu c (.run p b) with
      t := s.t.modProc p fun q => { q with chan := .null }, lock := k } := by
    intro k
    obtain ⟨L, hL⟩ := h.table
    have hL' : ListInv s.t.proc s.t.links L := hL
    have hI : (s.t.modProc p fun q => { q with chan := .null }).Inv := ⟨L, hL'.modify rfl rfl⟩
    refine h.keep hI (fun q _ => ?_) k
    by_cases e : q = p
    · simp [Sys.setCpu, e]
    · simp [Sys.setCpu, update_of_ne e]
  unfold Sys.resume
  cases hc : s.cont p with
  | wait => simpa [Sys.setCpu, hc] using hmod s.lock
  | asleep =>
    have h' := (hmod none).setCont (p := p) (x := .other) (by simp [Sys.setCpu, hc, Cont.embryo?])
    simpa [Sys.setCpu, Sys.setCont, hc] using h'
  | other | alloc np | fork np | copied np =>
    simpa [Sys.setCpu, hc] using h.keep h.table (fun _ _ => rfl) none

/-- A table that differs from another in one process. -/
theorem update_state {q : Proc} (proc : Slot → Proc) :
    ∀ r, r ≠ p → (update proc p q r).state = (proc r).state := fun r hr => by
  rw [update_of_ne hr]

/-! ## One step -/

section
variable (h : s.Inv)
include h

theorem Sys.Inv.step_fork : s.Safe (.fork c) (s.step (.fork c)) := by
  refine Sys.Safe.current fun p b hc => Sys.Safe.require fun ⟨hl, ho⟩ => ?_
  obtain ⟨L, hL⟩ := h.table
  rcases allocprocTake_spec hL with ⟨heq, -⟩ | ⟨np, k, L', hnp, hL', heq⟩
  · rw [heq]
    exact ⟨h, .forkFull hc hl ho⟩
  · rw [heq]
    exact ⟨h.getEmbryo ⟨L', hL'⟩ rfl hnp (by simp) (update_state _), .fork k hc hl ho hnp⟩

/-- The section that gives an embryo back. -/
theorem Sys.Inv.unallocproc {msg : String} (hc : s.cpu c = .run p b) (hl : s.lock = none)
    (hp : a = .forkStack c false ∧ s.cont p = .alloc np ∨
      a = .forkImage c false ∧ s.cont p = .fork np) :
    s.Safe a (do
      let t ← unallocproc msg np s.t
      return { s.setCont p .other with t := t }) := by
  obtain ⟨L, hL⟩ := h.table
  have he : (s.cont p).embryo? = some np := by
    rcases hp with ⟨-, hp⟩ | ⟨-, hp⟩ <;> rw [hp] <;> rfl
  obtain ⟨k, L', hL', heq⟩ := unallocproc_spec msg hL (h.embryo p np he)
  rw [heq]
  exact ⟨h.dropEmbryo he rfl ⟨L', hL'⟩ (update_state _), .forkFail k hc hl hp⟩

/-- `allocproc` is safe, with or without a kernel stack. -/
theorem Sys.Inv.step_forkStack (ok : Bool) : s.Safe (.forkStack c ok) (s.step (.forkStack c ok)) := by
  refine Sys.Safe.current fun p b hc => ?_
  dsimp only
  cases hp : s.cont p with
  | alloc np =>
    have he : (s.cont p).embryo? = some np := by rw [hp]; rfl
    cases ok with
    | false => exact Sys.Safe.require fun hl => h.unallocproc hc hl (.inl ⟨rfl, hp⟩)
    | true =>
      obtain ⟨L, hL⟩ := h.table
      have hI : (allocprocInit np s.t).Inv := by
        refine ⟨L, hL.assign ?_ (Nat.zero_le _)⟩
        rw [Proc.list?_eq (l := .embryo) (h.embryo p np he) nofun]
        exact Proc.list?_eq (l := .embryo) (h.embryo p np he) nofun
      refine ⟨(h.setCont (p := p) (x := .fork np) he.symm).keep hI (fun q _ => ?_) s.lock,
        .forkStack hc hp⟩
      by_cases e : q = np
      · simp [allocprocInit, Sys.setCont, e]
      · simp [allocprocInit, Sys.setCont, update_of_ne e]
  | other | fork np | copied np | asleep | wait => exact .inl rfl

/-- `fork` is safe, with or without a copy of the image. -/
theorem Sys.Inv.step_forkImage (ok : Bool) : s.Safe (.forkImage c ok) (s.step (.forkImage c ok)) := by
  refine Sys.Safe.current fun p b hc => ?_
  dsimp only
  cases hp : s.cont p with
  | fork np =>
    have he : (s.cont p).embryo? = some np := by rw [hp]; rfl
    cases ok with
    | false => exact Sys.Safe.require fun hl => h.unallocproc hc hl (.inr ⟨rfl, hp⟩)
    | true =>
      obtain ⟨L, hL⟩ := h.table
      refine ⟨(h.setCont (p := p) (x := .copied np) he.symm).keep
        (t := forkCopy p np s.t) ⟨L, hL.modify rfl rfl⟩ (fun q _ => ?_) s.lock, .forkImage hc hp⟩
      by_cases e : q = np
      · simp [forkCopy, Sys.setCont, e]
      · simp [forkCopy, Sys.setCont, update_of_ne e]
  | other | alloc np | copied np | asleep | wait => exact .inl rfl

/-- The end of `fork` makes the child `RUNNABLE`. -/
theorem Sys.Inv.step_forkDone : s.Safe (.forkDone c) (s.step (.forkDone c)) := by
  refine Sys.Safe.current fun p b hc => ?_
  dsimp only
  cases hp : s.cont p with
  | copied np =>
    have he : (s.cont p).embryo? = some np := by rw [hp]; rfl
    refine Sys.Safe.require fun hl => ?_
    obtain ⟨L, hL⟩ := h.table
    obtain ⟨k, L', hL', heq⟩ := forkReady_spec hL (h.embryo p np he)
    rw [heq]
    exact ⟨h.dropEmbryo he rfl ⟨L', hL'⟩ (update_state _), .forkDone k hc hl hp⟩
  | other | alloc np | fork np | asleep | wait => exact .inl rfl

/-- `exit` leaves its processor; that of `initproc` panics. -/
theorem Sys.Inv.step_exit : s.Safe (.exit c) (s.step (.exit c)) := by
  refine Sys.Safe.current fun p b hc => Sys.Safe.require fun ⟨hl, ho⟩ => ?_
  by_cases hi : some p = s.t.initproc
  · simp only [exit, panicIf, hi, if_true, error_bind]
    exact .inr rfl
  · obtain ⟨L, hL⟩ := h.table
    obtain ⟨k, L', hL', heq⟩ := exit_spec hL (h.running c p b hc) hi
    simp only [heq, ok_bind]
    refine ⟨h.leave hc ⟨L', hL'⟩ fun q hne => ?_, .exit k hc hl ho hi⟩
    dsimp only
    rw [update_of_ne hne]
    exact exitProcs_wakes q

/-- `wait` is safe, whether it reaps, gives up or sleeps. -/
theorem Sys.Inv.step_wait : s.Safe (.wait c) (s.step (.wait c)) := by
  refine Sys.Safe.current fun p b hc => Sys.Safe.require fun hw => ?_
  have hp : (s.cont p).embryo? = none := by
    rcases hw with ⟨-, hw⟩ | ⟨-, hw⟩ <;> rw [hw] <;> rfl
  obtain ⟨L, hL⟩ := h.table
  rcases wait_spec hL (h.running c p b hc) with
    ⟨z, k, L', hz, hpar, hL', heq⟩ | ⟨heq, -⟩ | ⟨k, L', hno, hL', heq⟩
  · simp only [heq, ok_bind]
    refine ⟨(h.setCont (p := p) (x := .other) hp.symm).keep ⟨L', hL'⟩ (fun q hs => ?_) none,
      .reap k hc hw hz hpar heq⟩
    have hne : q ≠ z := by
      rintro rfl
      rcases hs with hs | hs
      · exact absurd (hz.symm.trans hs) nofun
      · exact absurd (hz.symm.trans hs) nofun
    exact update_state _ q hne
  · simp only [heq, ok_bind]
    exact ⟨(h.setCont (p := p) (x := .other) hp.symm).keep h.table (fun _ _ => rfl) none,
      .waitFail hc hw heq⟩
  · simp only [heq, ok_bind]
    exact ⟨(h.setCont (p := p) (x := .wait) hp.symm).leave hc ⟨L', hL'⟩
      fun q hne => .inl (update_state _ q hne), .waitSleep k hc hw hno⟩

theorem Sys.Inv.step_yield : s.Safe (.yield c) (s.step (.yield c)) := by
  refine Sys.Safe.current fun p b hc => Sys.Safe.require fun hl => ?_
  obtain ⟨L, hL⟩ := h.table
  obtain ⟨k, L', hL', heq⟩ := yield_spec hL (h.running c p b hc)
  simp only [heq, ok_bind]
  exact ⟨h.leave hc ⟨L', hL'⟩ fun q hne => .inl (update_state _ q hne), .yield k hc hl⟩

/-- `sleep` leaves its processor and goes on the sleep list. -/
theorem Sys.Inv.step_sleep (chan : Chan) : s.Safe (.sleep c chan) (s.step (.sleep c chan)) := by
  refine Sys.Safe.current fun p b hc => Sys.Safe.require fun ⟨hl, ho⟩ => ?_
  obtain ⟨L, hL⟩ := h.table
  obtain ⟨k, L', hL', heq⟩ := sleep_spec chan hL (h.running c p b hc)
  simp only [heq, ok_bind]
  exact ⟨(h.setCont (p := p) (x := .asleep) (by rw [ho]; rfl)).leave hc ⟨L', hL'⟩
    fun q hne => .inl (update_state _ q hne), .sleep k hc hl ho⟩

/-- A turn of the scheduler is safe. -/
theorem Sys.Inv.step_turn : s.Safe (.turn c) (s.step (.turn c)) := by
  unfold Sys.step
  dsimp only
  cases hc : s.cpu c with
  | run p b | idle => exact .inl rfl
  | loop i =>
    refine Sys.Safe.require fun hl => ?_
    obtain ⟨t1, h1, ht1, hr⟩ := promotion_spec h.table
    rw [h1, ok_bind]
    have hI1 : Sys.Inv { s with t := t1 } := h.keep ht1 (fun q _ => hr.state q) s.lock
    rcases dispatch_spec i ht1 with ⟨-, heq⟩ | ⟨p, k, L', -, hp, -, hL', heq⟩
    · rw [heq, ok_bind]
      dsimp only
      split
      · next hi => exact ⟨hI1.setCpu nofun, .advance hc hl hr hi⟩
      · exact ⟨(hI1.setCpu (x := .idle) nofun).keep ht1 (fun _ _ => rfl) none, .pass hc hl hr⟩
    · rw [heq, ok_bind]
      exact ⟨(hI1.arrive ⟨L', hL'⟩ hp (by simp) (update_state _)).resume, .dispatch k hc hl hr hp⟩

/-- Every step from a state that satisfies the invariant is safe. -/
theorem Sys.Inv.step (a : Act) : s.Safe a (s.step a) := by
  obtain ⟨L, hL⟩ := h.table
  cases a with
  | fork c => exact h.step_fork
  | forkStack c ok => exact h.step_forkStack ok
  | forkImage c ok => exact h.step_forkImage ok
  | forkDone c => exact h.step_forkDone
  | exit c => exact h.step_exit
  | wait c => exact h.step_wait
  | yield c => exact h.step_yield
  | sleep c chan => exact h.step_sleep chan
  | wakeup chan =>
    refine Sys.Safe.require fun hl => ?_
    obtain ⟨k, L', hL', -, heq⟩ := wakeup1_spec chan hL
    simp only [heq, ok_bind]
    exact ⟨h.wakes ⟨L', hL'⟩ WakesOnly.woken, .wakeup k hl⟩
  | kill c pid =>
    refine Sys.Safe.current fun p b hc => Sys.Safe.require fun ⟨hl, ho⟩ => ?_
    obtain ⟨k, L', hL', heq⟩ := kill_spec pid hL
    simp only [heq, ok_bind]
    refine ⟨h.wakes ⟨L', hL'⟩ (WakesOnly.killed _ k), .kill k hc hl ho fun q hq => ⟨?_, ?_⟩⟩
    · simpa using List.find?_some hq
    · exact ((mem_killOrder hL).1 (List.mem_of_find?_eq_some hq)).1
  | setpriority c pid priority =>
    refine Sys.Safe.current fun p b hc => Sys.Safe.require fun ⟨hl, ho⟩ => ?_
    obtain ⟨rc, t, heq, ht, hr⟩ := setpriority_spec pid priority hL
    simp only [heq, ok_bind]
    exact ⟨h.wakes ht fun q => .inl (hr.state q), .setpriority hc hl ho hr⟩
  | fault c =>
    refine Sys.Safe.current fun p b hc => Sys.Safe.require fun ho => ?_
    exact ⟨h.wakes ⟨L, hL.modify rfl rfl⟩ (WakesOnly.update (.inl rfl)), .fault hc ho⟩
  | enter c =>
    refine Sys.Safe.require fun ⟨hl, hc⟩ => ?_
    exact ⟨(h.setCpu (c := c) (x := .loop 0) nofun).keep h.table (fun _ _ => rfl) (some c),
      .enter hc hl⟩
  | turn c => exact h.step_turn
  | tick => exact ⟨h.wakes (h.table.of_eq rfl rfl) fun _ => .inl rfl, .tick⟩

variable {s' : Sys} (hs : s.step a = .ok s')
include hs

theorem Sys.Inv.of_step : s'.Inv := by
  have hsafe := h.step a
  rw [hs] at hsafe
  exact hsafe.1

/-- Every step has one of the effects. -/
theorem Sys.Inv.trans : s.Trans a s' := by
  have hsafe := h.step a
  rw [hs] at hsafe
  exact hsafe.2

end

/-! ## Whole runs -/

/-- The machine starts in a state that satisfies the invariant. -/
theorem Sys.Inv.init (ht : t.Inv) : (Sys.init t).Inv where
  table := ht
  running _ _ _ := nofun
  one _ _ _ _ _ := nofun
  embryo _ _ := nofun
  owner _ _ _ := nofun

/-- The invariant holds in every reachable state. -/
theorem Sys.Reachable.inv (h : s.Reachable) : s.Inv := by
  induction h with
  | init ht =>
    obtain ⟨t, ht', hI⟩ := userinit_spec
    rw [ht] at ht'
    cases ht'
    exact .init hI
  | step _ hs ih => exact ih.of_step hs

/-- In every reachable state the chains of `next` pointers from the list heads end in null and
visit every slot exactly once; a slot is on the list of its state, and on `ready[i]` only with
priority `i`; and no step fails in the list code: `initproc` calling `exit` is the only panic. -/
theorem process_lists_consistent (h : s.Reachable) :
    (∃ L : ListId → List Slot,
      (∀ l, Chain s.t.links.next (s.t.links.head l) (L l) ∧ (L l).Nodup) ∧
      (∀ p, ∃! l, p ∈ L l) ∧
      (∀ l p, p ∈ L l → (s.t.proc p).state = l.state) ∧
      (∀ i p, p ∈ L (.ready i) → (s.t.proc p).priority.toNat = i) ∧
      (∀ p, (s.t.proc p).priority.toNat ≤ MAX)) ∧
    ∀ a e, s.step a = .error e → e = .disabled ∨ e = .panic "init exiting" := by
  have hI := h.inv
  obtain ⟨L, hL⟩ := hI.table
  refine ⟨⟨L, fun l => ⟨hL.chain l, (hL.chain l).nodup⟩, fun p => ?_, fun l p => hL.state,
    fun i p => hL.priority, hL.bound⟩, fun a e he => ?_⟩
  · obtain ⟨l, hl⟩ := hL.exists_mem p
    exact ⟨l, hl, fun l' hl' => hL.holds.disj l' l p hl' hl⟩
  · have hs := hI.step a
    rwa [he] at hs

/-- The first process forks twice, its first child exits, and a `wait` frees it before the next
`fork`. -/
def forkWaitRun : List Act :=
  [Act.enter cpu0, .turn cpu0] ++ forkActs cpu0 ++ forkActs cpu0 ++
  [.yield cpu0, .turn cpu0, .exit cpu0, .turn cpu0, .yield cpu0, .turn cpu0, .wait cpu0] ++
  forkActs cpu0

/-- After that run there are three processes, each of them on one list. -/
theorem process_lists_consistent_forkWaitRun :
    ∃ (s : Sys) (L : Lists), (Sys.init booted).run forkWaitRun = .ok s ∧
      (s.t.proc initSlot).state = .running ∧ (s.t.proc childSlot).state = .runnable ∧
      (s.t.proc secondSlot).state = .runnable ∧
      (∀ l, Chain s.t.links.next (s.t.links.head l) (L l)) ∧ ∀ p, ∃! l, p ∈ L l := by
  have hrun : ((Sys.init booted).run forkWaitRun).toOption.any (fun s => decide
      ((s.t.proc initSlot).state = .running ∧ (s.t.proc childSlot).state = .runnable ∧
        (s.t.proc secondSlot).state = .runnable)) = true := by
    decide +kernel
  obtain ⟨s, hs, hf⟩ := exists_ok hrun
  obtain ⟨hi, hc, h2⟩ := of_decide_eq_true hf
  obtain ⟨⟨L, hL, hone, -⟩, -⟩ := process_lists_consistent ((Sys.Reachable.init userinit_eq).run hs)
  exact ⟨s, L, hs, hi, hc, h2, fun l => (hL l).1, hone⟩

end

end TronBoss
