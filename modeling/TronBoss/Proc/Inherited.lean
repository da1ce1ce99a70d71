import TronBoss.Proc.Pids

/-!
# Who was killed by name

A slot goes back to the free list on three paths: `wait` clears `killed`, and the two failures of
`fork` do not. `Sys.Traced` runs the machine together with a record of the processes that have been
named by `kill`, or have faulted, since they got their pid. As long as no killed embryo is given
back, a process is marked only if the record names it (`killed_by_name`); a killed embryo that is
given back leaves its mark in the slot, and the very next `fork` makes a process that starts out
killed.
-/

namespace TronBoss

open Lib Function

/-- A step by which the process `q` is killed: a `kill` of its pid, or a fault of its own. -/
def Sys.names (s : Sys) (q : Slot) : Act → Bool
  | .kill _ pid => pid.toUInt32 = (s.t.proc q).pid
  | .fault c => match s.cpu c with
    | .run p _ => p = q
    | _ => false
  | _ => false

/-- The record after a step: a slot that gets a new pid starts afresh. -/
def Sys.record (s : Sys) (a : Act) (s' : Sys) (g : Slot → Bool) (q : Slot) : Bool :=
  if (s.t.proc q).state = .unused ∧ (s'.t.proc q).state ≠ .unused then false
  else g q || s.names q a

/-- The runs from `userinit` whose steps satisfy a condition, with the record. -/
inductive Sys.Traced (P : Sys → Act → Prop) : Sys → (Slot → Bool) → Prop
  | init : Traced P (.init booted) fun _ => false
  | step {s s' : Sys} {g : Slot → Bool} {a : Act} : Traced P s g → P s a → s.step a = .ok s' →
    Traced P s' (s.record a s' g)

/-- A process is marked only if the record names it. -/
def KilledByName (s : Sys) (g : Slot → Bool) : Prop :=
  ∀ p, (s.t.proc p).state ≠ .unused → (s.t.proc p).killed → g p

/-- No killed embryo is given back. -/
def CleanEmbryos (s : Sys) (a : Act) : Prop :=
  ∀ c p b np, s.cpu c = .run p b →
    (a = .forkStack c false ∧ s.cont p = .alloc np ∨
      a = .forkImage c false ∧ s.cont p = .fork np) → (s.t.proc np).killed = false

section
variable {s s' : Sys} {a : Act} {c : Fin NCPU} {g : Slot → Bool} {P : Sys → Act → Prop}

theorem Sys.Traced.reachable (h : Sys.Traced P s g) : s.Reachable := by
  induction h with
  | init => exact .init userinit_eq
  | step _ _ hs ih => exact ih.step hs

theorem booted_killed (q : Slot) : ((Sys.init booted).t.proc q).killed = false := by
  change (booted.proc q).killed = false
  rw [booted_proc]
  split <;> rfl

/-- A slot in use keeps its record, and gets into it when it is named. -/
theorem Sys.record_of_used {q : Slot} (hu : (s.t.proc q).state ≠ .unused) :
    s.record a s' g q = (g q || s.names q a) :=
  if_neg fun h => hu h.1

/-- What a step does to the mark of a process: a process in use is marked when it was, or is named
by the step; a slot that is given back is not marked. -/
theorem Sys.Change.mark {q : Slot} {x : Proc} (hI : s.Inv) (hclean : CleanEmbryos s a)
    (hfree : (s.t.proc q).state = .unused → (s.t.proc q).killed = false) (h : s.Change a s' q x) :
    (x.state = .unused → x.killed = false) ∧
      (x.state ≠ .unused → x.killed → (s.t.proc q).state ≠ .unused ∧
        ((s.t.proc q).killed ∨ s.names q a)) := by
  have hkeep : x.killed = (s.t.proc q).killed →
      ((s.t.proc q).state ≠ .unused → x.state ≠ .unused) → (x.state = .unused → x.killed = false) ∧
        (x.state ≠ .unused → x.killed → (s.t.proc q).state ≠ .unused ∧
          ((s.t.proc q).killed ∨ s.names q a)) := by
    intro hk hu
    refine ⟨fun hx => hk ▸ hfree (by_contra fun hq => hu hq hx), fun hx hxk => ?_⟩
    rcases h.pid hI hx with ⟨hq, -⟩ | ⟨hq, -⟩
    · exact ⟨hq, .inl (hk ▸ hxk)⟩
    · rw [hk, hfree hq] at hxk
      cases hxk
  cases h with
  | given hc ha _ hx =>
    subst hx
    exact ⟨fun _ => hclean _ _ _ q hc ha, fun h => absurd rfl h⟩
  | reaped _ _ _ _ _ _ hx =>
    subst hx
    exact ⟨fun _ => rfl, fun h => absurd rfl h⟩
  | killed ha hu hx =>
    refine ⟨fun h => ?_, fun _ _ => ⟨hu, .inr ?_⟩⟩
    · rw [hx, Proc.marked] at h
      split at h
      · cases h
      · exact absurd h hu
    · rcases ha with ⟨c, pid, rfl, hpid⟩ | ⟨c, b, rfl, hc⟩
      · exact decide_eq_true hpid.symm
      · simp [Sys.names, hc]
  | ranked hx =>
    obtain ⟨_, _, rfl, -⟩ := hx
    exact hkeep rfl id
  | charged _ _ hst hx =>
    obtain ⟨_, _, e⟩ := (s.t.proc q).charged_eq s.t.ticks _ _
    rw [e] at hx
    subst hx
    refine hkeep rfl fun _ => ?_
    rcases hst with rfl | ⟨rfl, -⟩ <;> rintro ⟨⟩
  | woken hst hx =>
    subst hx
    refine hkeep rfl fun hq => ?_
    rcases hst with rfl | ⟨-, rfl⟩
    · exact hq
    · rintro ⟨⟩
  | dispatched _ _ hr hx =>
    obtain ⟨_, _, rfl, -⟩ := hr
    exact hkeep (hx ▸ rfl) fun _ => hx ▸ (by rintro ⟨⟩)
  | taken _ _ _ hx | ready _ _ hx | exited _ _ hx => exact hkeep (hx ▸ rfl) fun _ => hx ▸ (by rintro ⟨⟩)
  | made _ _ _ _ hx | copied _ _ hx => exact hkeep (hx ▸ rfl) fun hq => hx ▸ hq

/-- A step that gives back no killed embryo marks only processes that it names, and leaves the free
slots unmarked. -/
theorem record_step (hI : s.Inv) (hclean : CleanEmbryos s a) (hs : s.step a = .ok s')
    (hfree : ∀ q, (s.t.proc q).state = .unused → (s.t.proc q).killed = false)
    (hg : KilledByName s g) :
    (∀ q, (s'.t.proc q).state = .unused → (s'.t.proc q).killed = false) ∧
      KilledByName s' (s.record a s' g) := by
  have hmark := fun q => (hI.change hs q).mark hI hclean (hfree q)
  refine ⟨fun q => (hmark q).1, fun q hq hk => ?_⟩
  obtain ⟨hu, hkilled⟩ := (hmark q).2 hq hk
  rw [Sys.record_of_used hu, Bool.or_eq_true]
  exact hkilled.imp (hg q hu) id

/-- The record names every marked process of a run without killed embryos given back. -/
theorem killed_by_name (h : Sys.Traced CleanEmbryos s g) : KilledByName s g := by
  suffices hs : (∀ q, (s.t.proc q).state = .unused → (s.t.proc q).killed = false) ∧
      KilledByName s g from hs.2
  induction h with
  | init => exact ⟨fun q _ => booted_killed q, fun q _ hk => by
    rw [booted_killed] at hk
    cases hk⟩
  | step htr hclean hs ih => exact record_step htr.reachable.inv hclean hs ih.1 ih.2

/-- An embryo that is given back is the first slot of the free list. -/
theorem unallocproc_head {t t' : PTable} {msg : String} {np : Slot}
    (h : unallocproc msg np t = .ok t') : t'.links.head .free = some np := by
  unfold unallocproc at h
  obtain ⟨⟨rc, k⟩, -, h⟩ := bind_eq_ok.1 h
  obtain ⟨_, -, h⟩ := bind_eq_ok.1 h
  obtain ⟨_, -, h⟩ := bind_eq_ok.1 h
  cases h
  simp [addtofrontoflist]

/-- What the section does that gives back the embryo `np` of the process `p`. -/
theorem embryo_given_back {p np : Slot} {b : Bool} (hI : s.Inv) (hs : s.step a = .ok s')
    (hc : s.cpu c = .run p b)
    (ha : a = .forkStack c false ∧ s.cont p = .alloc np ∨
      a = .forkImage c false ∧ s.cont p = .fork np) :
    s'.cpu c = .run p b ∧ s'.lock = none ∧ s'.cont p = .other ∧
      s'.t.links.head .free = some np ∧
      s'.t.proc np = { s.t.proc np with state := .unused } := by
  have hback : ∀ {msg}, (do
      require (s.lock = none)
      let t ← unallocproc msg np s.t
      return { s.setCont p .other with t := t }) = Except.ok s' →
      s'.cpu c = .run p b ∧ s'.lock = none ∧ s'.cont p = .other ∧
        s'.t.links.head .free = some np ∧
        s'.t.proc np = { s.t.proc np with state := .unused } := by
    intro msg h
    obtain ⟨L, hL⟩ := hI.table
    obtain ⟨hl, h⟩ := require_bind_eq_ok h
    obtain ⟨t, ht, h⟩ := bind_eq_ok.1 h
    have he : (s.t.proc np).state = .embryo := hI.embryo p np (by
      rcases ha with ⟨-, hp⟩ | ⟨-, hp⟩ <;> rw [hp] <;> rfl)
    obtain ⟨k, L', -, heq⟩ := unallocproc_spec msg hL he
    cases h
    refine ⟨hc, hl, update_self .., unallocproc_head ht, ?_⟩
    cases heq.symm.trans ht
    exact update_self ..
  rcases ha with ⟨rfl, hp⟩ | ⟨rfl, hp⟩
  · simp only [Sys.step, Sys.current, hc, ok_bind, hp] at hs
    exact hback hs
  · simp only [Sys.step, Sys.current, hc, ok_bind, hp] at hs
    exact hback hs

/-- As long as no killed embryo is given back, a process is marked only if it was named by `kill`
after it got its pid, or has faulted; and a step keeps this over the next `fork` exactly if it gives
back no killed embryo. -/
theorem killed_by_name_iff (h : Sys.Traced CleanEmbryos s g) :
    KilledByName s g ∧ ∀ a s', s.step a = .ok s' →
      (CleanEmbryos s a ↔ ∀ c s'', s'.step (.fork c) = .ok s'' →
        KilledByName s'' (s'.record (.fork c) s'' (s.record a s' g))) := by
  refine ⟨killed_by_name h, fun a s' hs => ⟨fun hclean c s'' hs' => ?_, fun hall => ?_⟩⟩
  · refine killed_by_name ((h.step hclean hs).step ?_ hs')
    rintro c' p b np - (⟨h, -⟩ | ⟨h, -⟩) <;> cases h
  · intro c p b np hc ha
    have hI := h.reachable.inv
    obtain ⟨hc', hl', ho', hfree, hnp⟩ := embryo_given_back hI hs hc ha
    obtain ⟨np', s'', hnp', hhead, hfork, hproc⟩ :=
      (hI.of_step hs).fork_take hc' hl' ho' ⟨np, by rw [hnp]⟩
    obtain rfl : np = np' := Option.some.inj (hfree.symm.trans hhead)
    -- the process that the next `fork` makes is not in the record
    have hrec : s'.record (.fork c) s'' (s.record a s' g) np = false := by
      refine if_pos ⟨hnp', ?_⟩
      rw [hproc, update_self]
      exact nofun
    have hmark := hall c s'' hfork np (by rw [hproc, update_self]; exact nofun)
    rw [hproc, update_self, hrec, hnp] at hmark
    simpa using hmark

/-- A step that has to satisfy a condition, with its record. -/
def Sys.stepRecord (P : Sys → Act → Prop) [∀ s a, Decidable (P s a)] (x : Sys × (Slot → Bool))
    (a : Act) : Except Stop (Sys × (Slot → Bool)) := do
  require (P x.1 a)
  let s' ← x.1.step a
  return (s', x.1.record a s' x.2)

theorem traced_of_run [∀ s a, Decidable (P s a)] {as : List Act} {x : Sys × (Slot → Bool)}
    (hr : as.foldlM (Sys.stepRecord P) (.init booted, fun _ => false) = .ok x) :
    Sys.Traced P x.1 x.2 := by
  refine foldlM_keeps (P := fun x => Sys.Traced P x.1 x.2) ?_ .init hr
  intro x a y _ h hs
  obtain ⟨hP, hs⟩ := require_bind_eq_ok hs
  obtain ⟨s', hs', hy⟩ := bind_eq_ok.1 hs
  cases hy
  exact h.step hP hs'

-- only a `fork` that fails has anything to be looked at
instance (s : Sys) (a : Act) : Decidable (CleanEmbryos s a) :=
  decidable_of_iff (∀ c, (a = .forkStack c false ∨ a = .forkImage c false) →
      ∀ p b, s.cpu c = .run p b → ∀ np, (a = .forkStack c false ∧ s.cont p = .alloc np ∨
        a = .forkImage c false ∧ s.cont p = .fork np) → (s.t.proc np).killed = false)
    ⟨fun h c p b np hc ha => h c (ha.imp And.left And.left) p b hc np ha,
      fun h c _ p b hc np => h c p b np hc⟩

/-- `initproc` kills its child, and then its next `fork` fails. -/
def killChildRun : List Act :=
  [Act.enter cpu0, .turn cpu0] ++ forkActs cpu0 ++ [.kill cpu0 2, .fork cpu0, .forkStack cpu0 false]

/-- The child is marked, and the embryo that was given back is not. -/
theorem killed_by_name_iff_killChildRun :
    ∃ s g, killChildRun.foldlM (Sys.stepRecord CleanEmbryos) (.init booted, fun _ => false) =
        .ok (s, g) ∧ KilledByName s g ∧ (s.t.proc childSlot).killed = true ∧
      (s.t.proc secondSlot).pid = 3 ∧ (s.t.proc secondSlot).state = .unused := by
  have hrun : (killChildRun.foldlM (Sys.stepRecord CleanEmbryos)
      (.init booted, fun _ => false)).toOption.any (fun x => decide
        ((x.1.t.proc childSlot).killed = true ∧ (x.1.t.proc secondSlot).pid = 3 ∧
          (x.1.t.proc secondSlot).state = .unused)) = true := by
    decide +kernel
  obtain ⟨⟨s, g⟩, hs, hf⟩ := exists_ok hrun
  exact ⟨s, g, hs, (killed_by_name_iff (traced_of_run hs)).1, of_decide_eq_true hf⟩

/-- `initproc` forks a process, which gets the second processor and kills the embryo of the next
`fork`; that `fork` finds no memory for a kernel stack, and the one after it does. -/
def inheritedRun : List Act :=
  [Act.enter cpu0, .turn cpu0] ++ forkActs cpu0 ++
  [.enter cpu1, .turn cpu1, .fork cpu0, .kill cpu1 3, .forkStack cpu0 false] ++ forkActs cpu0

/-- The process with the pid four is marked, and nobody has called `kill` with its pid. -/
theorem kill_inherited :
    ∃ s g, inheritedRun.foldlM (Sys.stepRecord fun _ _ => True) (.init booted, fun _ => false) = .ok (s, g) ∧
      Sys.Traced (fun _ _ => True) s g ∧ (s.t.proc secondSlot).state = .runnable ∧
      (s.t.proc secondSlot).pid = 4 ∧ (s.t.proc secondSlot).killed = true ∧
      ¬ KilledByName s g := by
  have hrun : (inheritedRun.foldlM (Sys.stepRecord fun _ _ => True) (.init booted, fun _ => false)).toOption.any
      (fun x => decide ((x.1.t.proc secondSlot).state = .runnable ∧
        (x.1.t.proc secondSlot).pid = 4 ∧ (x.1.t.proc secondSlot).killed = true ∧
        x.2 secondSlot = false)) = true := by
    decide +kernel
  obtain ⟨⟨s, g⟩, hs, hf⟩ := exists_ok hrun
  obtain ⟨hst, hpid, hk, hg⟩ := of_decide_eq_true hf
  dsimp only at hst hpid hk hg
  refine ⟨s, g, hs, traced_of_run hs, hst, hpid, hk, fun h => ?_⟩
  rw [h secondSlot (hst.trans_ne nofun) hk] at hg
  cases hg

end

end TronBoss
