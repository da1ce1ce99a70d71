import TronBoss.Proc.ListInv

/-!
# What each section does, and that it keeps the process-list invariant

One lemma for every section of `TronBoss.Proc.Sections`: started on a table that satisfies the
process-list invariant (`PTable.Inv`), with the process it works on in the state the routine
expects, the section returns, the invariant holds afterwards, and the new table differs from the
old one in the links and in the fields that the lemma names. So none of the panics of these
routines is reached, no index is out of bounds and every loop over a list ends.
-/

namespace TronBoss

open Lib Function List

/-- The process-list invariant of a table. -/
def PTable.Inv (t : PTable) : Prop := ∃ L, ListInv t.proc t.links L

/-- The invariant reads the slots and the links only. -/
theorem PTable.Inv.of_eq {t t' : PTable} (h : t.Inv) (hp : t'.proc = t.proc)
    (hl : t'.links = t.links) : t'.Inv := by
  obtain ⟨L, hL⟩ := h
  exact ⟨L, by rwa [hp, hl]⟩

section
variable {t : PTable} {p : Slot} {f : Proc → Proc}

@[simp] theorem PTable.modProc_proc : (t.modProc p f).proc =
    update t.proc p (f (t.proc p)) := rfl

@[simp] theorem PTable.modProc_links : (t.modProc p f).links = t.links := rfl

@[simp] theorem PTable.modProc_initproc : (t.modProc p f).initproc = t.initproc := rfl

@[simp] theorem PTable.modProc_ticks : (t.modProc p f).ticks = t.ticks := rfl

@[simp] theorem PTable.modProc_nextpid : (t.modProc p f).nextpid = t.nextpid := rfl

@[simp] theorem PTable.modProc_promoteAtTime :
    (t.modProc p f).promoteAtTime = t.promoteAtTime := rfl

theorem assertstate_ok {st : ProcState} (h : (t.proc p).state = st) : assertstate p st t = .ok () :=
  panicIf_neg (not_not_intro h)

end

section
variable {t : PTable} {p : Slot} {l : ListId} {L : Lists} {proc : Slot → Proc} {k : Links}
  {q : Proc}

/-- A slot whose state is that of a list other than a ready list is on that list. -/
theorem ListInv.mem_of_state
    (h : ListInv proc k L) (hs : (proc p).state = l.state) (hl : l.state ≠ .runnable) : p ∈ L l :=
  (h.mem l p).2 (Proc.list?_eq hs hl)

/-! ## Creation of processes -/

/-- The first section of `allocproc` returns null only when every slot is in use, and otherwise
makes an unused slot an embryo with the next pid. -/
theorem allocprocTake_spec (hL : ListInv t.proc t.links L) :
    (allocprocTake t = .ok (none, t) ∧ ∀ q, (t.proc q).state ≠ .unused) ∨
    ∃ np k L', (t.proc np).state = .unused ∧
      ListInv (update t.proc np { t.proc np with state := .embryo, pid := t.nextpid })
        k L' ∧
      allocprocTake t = .ok (some np, { t with
        proc := update t.proc np { t.proc np with state := .embryo, pid := t.nextpid }
        links := k
        nextpid := t.nextpid + 1 }) := by
  cases hfree : L .free with
  | nil =>
    refine .inl ⟨?_, fun q hq => ?_⟩
    · have hc := hL.chain .free
      rw [hfree, chain_nil] at hc
      simp only [allocprocTake, hc]
    · have := hL.mem_of_state (l := .free) hq nofun
      simp [hfree] at this
  | cons np xs =>
    have hnp : (t.proc np).state = .unused := hL.state (l := .free) (by simp [hfree])
    have hc := hL.chain .free
    rw [hfree] at hc
    obtain ⟨k, hk, hw⟩ := hL.removeFront hfree
    refine .inr ⟨np, _, _, hnp, hw.pushFront rfl (hL.bound np), ?_⟩
    simp only [allocprocTake, hc.1, hk]
    rw [panicIf_neg (by decide), ok_bind, assertstate_ok (by exact hnp)]
    simp [PTable.modProc]

/-- A section that gives up on an embryo frees it. -/
theorem unallocproc_spec (msg : String) (hL : ListInv t.proc t.links L)
    (hp : (t.proc p).state = .embryo) :
    ∃ k L', ListInv (update t.proc p { t.proc p with state := .unused }) k L' ∧
      unallocproc msg p t = .ok { t with
        proc := update t.proc p { t.proc p with state := .unused }
        links := k } := by
  obtain ⟨k, hk, hw⟩ := hL.remove (hL.mem_of_state (l := .embryo) hp nofun)
  refine ⟨_, _, hw.pushFront rfl (hL.bound p), ?_⟩
  simp only [unallocproc, hk, ok_bind]
  rw [panicIf_neg (by decide), ok_bind, assertstate_ok (by exact hp)]
  simp [PTable.modProc]

/-- A process that is on no list is put on the ready list of its priority. -/
theorem Without.ready
    (h : Without proc p k L) (hq : q.state = .runnable) (hb : q.priority.toNat ≤ MAX) :
    ∃ i k', readyList q.priority = .ok (.ready i) ∧
      addtoreadyprioritylist (.ready i) (some p) k = .ok (0, k') ∧
      ListInv (update proc p q) k'
        (update L (.ready i) (L (.ready i) ++ [p])) := by
  obtain ⟨k', hk', hI⟩ := h.pushBack (Proc.list?_runnable hq hb) hb
  exact ⟨_, k', readyList_eq hb, hk', hI⟩

/-- The last section of `fork` makes the embryo runnable. -/
theorem forkReady_spec (hL : ListInv t.proc t.links L)
    (hp : (t.proc p).state = .embryo) :
    ∃ k L', ListInv (update t.proc p { t.proc p with state := .runnable }) k L' ∧
      forkReady p t = .ok { t with
        proc := update t.proc p { t.proc p with state := .runnable }
        links := k } := by
  obtain ⟨k, hk, hw⟩ := hL.remove (hL.mem_of_state (l := .embryo) hp nofun)
  obtain ⟨i, k', hl, hk', hI⟩ :=
    hw.ready (q := { t.proc p with state := .runnable }) rfl (hL.bound p)
  refine ⟨k', _, hI, ?_⟩
  simp only [forkReady, hk, ok_bind]
  rw [panicIf_neg (by decide), ok_bind, assertstate_ok (by exact hp)]
  simp only [ok_bind, PTable.modProc, update_self, hl, hk']
  rw [panicIf_neg (by decide)]
  rfl

/-! ## Leaving the processor -/

/-- `sched` only charges the time since the dispatch. -/
theorem sched_eq (h : (t.proc p).state ≠ .running) :
    sched p t = .ok (t.modProc p fun q =>
      { q with cpuTicksTotal := q.cpuTicksTotal + (t.ticks - q.cpuTicksIn) }) := by
  simp only [sched]
  rw [panicIf_neg (by simpa using h)]
  rfl

/-- A demotion stops at the lowest priority. -/
theorem chargeBudget_bound (ticks : UInt32) (h : q.priority.toNat ≤ MAX) :
    (chargeBudget ticks q).priority.toNat ≤ MAX := by
  unfold chargeBudget
  dsimp only
  split
  · split
    · next hne =>
      have hlt : q.priority.toNat < MAX := by
        refine lt_of_le_of_ne h fun e => hne ?_
        rw [← UInt32.toNat_inj, e]
        rfl
      have hadd : (q.priority + 1).toNat = q.priority.toNat + 1 := by
        rw [UInt32.toNat_add]
        have : MAX = 5 := rfl
        simp
        omega
      rw [hadd]
      exact hlt
    · exact h
  · exact h

/-- The budget update changes the priority and the budget only. -/
theorem chargeBudget_eq (q : Proc) (ticks : UInt32) :
    ∃ x y, chargeBudget ticks q = { q with priority := x, budget := y } := by
  unfold chargeBudget
  dsimp only
  split
  · split <;> exact ⟨_, _, rfl⟩
  · exact ⟨_, _, rfl⟩

@[simp] theorem chargeBudget_state (q : Proc) (ticks : UInt32) :
    (chargeBudget ticks q).state = q.state := by
  obtain ⟨_, _, e⟩ := chargeBudget_eq q ticks
  rw [e]

/-- The fields of a process that has just yielded. -/
def Proc.yielded (ticks : UInt32) (q : Proc) : Proc :=
  let q := chargeBudget ticks { q with state := .runnable }
  { q with cpuTicksTotal := q.cpuTicksTotal + (ticks - q.cpuTicksIn) }

/-- `yield` makes the running process runnable. -/
theorem yield_spec (hL : ListInv t.proc t.links L)
    (hp : (t.proc p).state = .running) :
    ∃ k L', ListInv (update t.proc p ((t.proc p).yielded t.ticks)) k L' ∧
      yield p t = .ok { t with
        proc := update t.proc p ((t.proc p).yielded t.ticks)
        links := k } := by
  obtain ⟨k, hk, hw⟩ := hL.remove (hL.mem_of_state (l := .running) hp nofun)
  have hq : (chargeBudget t.ticks { t.proc p with state := .runnable }).state = .runnable := by
    simp
  have hb := chargeBudget_bound (q := { t.proc p with state := .runnable }) t.ticks
    (hL.bound p)
  obtain ⟨i, k', hl, hk', hI⟩ := hw.ready hq hb
  have hI' := hI.assign (p := p) (q := (t.proc p).yielded t.ticks)
    (by rw [update_self]; exact Proc.list?_congr rfl rfl) hb
  rw [update_idem] at hI'
  refine ⟨k', _, hI', ?_⟩
  simp only [yield, hk, ok_bind]
  rw [assertstate_ok (by exact hp)]
  simp only [ok_bind, PTable.modProc, update_self, hl, hk']
  rw [panicIf_neg (by decide), ok_bind, sched_eq (by simp)]
  simp [PTable.modProc, Proc.yielded]

/-- The fields of a process that has just gone to sleep. -/
def Proc.slept (ticks : UInt32) (chan : Chan) (q : Proc) : Proc :=
  let q := { chargeBudget ticks { q with chan := chan } with state := .sleeping }
  { q with cpuTicksTotal := q.cpuTicksTotal + (ticks - q.cpuTicksIn) }

theorem Proc.slept_eq (q : Proc) (ticks : UInt32) (chan : Chan) : ∃ x y z, q.slept ticks chan =
    { q with state := .sleeping, chan := chan, priority := x, budget := y, cpuTicksTotal := z } := by
  obtain ⟨x, y, e⟩ := chargeBudget_eq { q with chan := chan } ticks
  exact ⟨x, y, _, by rw [Proc.slept, e]⟩

/-- `sleep` puts the running process on the sleep list. -/
theorem sleep_spec (chan : Chan) (hL : ListInv t.proc t.links L)
    (hp : (t.proc p).state = .running) :
    ∃ k L', ListInv (update t.proc p ((t.proc p).slept t.ticks chan)) k L' ∧
      sleep chan p t = .ok { t with
        proc := update t.proc p ((t.proc p).slept t.ticks chan)
        links := k } := by
  obtain ⟨k, hk, hw⟩ := hL.remove (hL.mem_of_state (l := .running) hp nofun)
  have hb := chargeBudget_bound (q := { t.proc p with chan := chan }) t.ticks (hL.bound p)
  refine ⟨_, _, hw.pushFront (q := (t.proc p).slept t.ticks chan) (l := .sleep) rfl hb, ?_⟩
  simp only [sleep, PTable.modProc_links, hk, ok_bind]
  rw [panicIf_neg (by decide), ok_bind,
    assertstate_ok (by simpa [PTable.modProc] using hp), ok_bind,
    sched_eq (by simp [PTable.modProc])]
  simp [PTable.modProc, Proc.slept]

/-! ## Waking up -/

/-- The fields of a process after a wakeup on a channel. -/
def Proc.woken (chan : Chan) (q : Proc) : Proc :=
  if q.state = .sleeping ∧ q.chan = chan then { q with state := .runnable } else q

/-- `wakeup1` moves a process that sleeps on the channel from the sleep list to a ready list. -/
theorem wakeup1Proc_spec (hL : ListInv t.proc t.links L) (hp : p ∈ L .sleep) :
    ∃ i k L', ListInv (update t.proc p { t.proc p with state := .runnable }) k L' ∧
      L' .sleep = (L .sleep).erase p ∧ (∀ l, l ≠ .sleep → l ≠ .ready i → L' l = L l) ∧
      wakeup1Proc p t = .ok { t with
        proc := update t.proc p { t.proc p with state := .runnable }
        links := k } := by
  obtain ⟨k, hk, hw⟩ := hL.remove hp
  obtain ⟨i, k', hl, hk', hI⟩ :=
    hw.ready (q := { t.proc p with state := .runnable }) rfl (hL.bound p)
  refine ⟨i, k', _, hI, ?_, fun l h1 h2 => ?_, ?_⟩
  · simp
  · rw [update_of_ne h2, update_of_ne h1]
  · simp only [wakeup1Proc, hk, ok_bind, if_true]
    rw [assertstate_ok (by exact hL.state hp)]
    simp only [ok_bind, PTable.modProc, update_self, hl, hk']
    rw [panicIf_neg (by decide)]
    rfl

/-- The loop of `wakeup1` at a suffix `ys` of the sleep list: the slots before it stay asleep, and
those of `ys` that sleep on the channel are woken. -/
theorem wakeup1Loop_spec (chan : Chan) {ys : List Slot} : ∀ {fuel : Nat} {t : PTable} {L : Lists}
    (xs : List Slot), ListInv t.proc t.links L → L .sleep = xs ++ ys → ys.length < fuel →
    ∃ k L', ListInv (fun q => if q ∈ ys then (t.proc q).woken chan else t.proc q) k L' ∧
      (∀ l, l.state ≠ .sleeping → l.state ≠ .runnable → L' l = L l) ∧
      wakeup1Loop chan fuel ys.head? t = .ok { t with
        proc := fun q => if q ∈ ys then (t.proc q).woken chan else t.proc q
        links := k } := by
  induction ys with
  | nil =>
    intro fuel t L xs hL hs hf
    obtain ⟨fuel, rfl⟩ := Nat.exists_eq_succ_of_ne_zero (Nat.ne_of_gt hf)
    exact ⟨t.links, L, by simpa using hL, fun _ _ _ => rfl, by simp [wakeup1Loop]⟩
  | cons y ys ih =>
    intro fuel t L xs hL hs hf
    obtain ⟨fuel, rfl⟩ := Nat.exists_eq_succ_of_ne_zero (by omega : fuel ≠ 0)
    have hc := hL.chain .sleep
    rw [hs] at hc
    have hnd := hc.nodup
    have hy : y ∈ L .sleep := by simp [hs]
    have hyst : (t.proc y).state = .sleeping := hL.state hy
    have hnext : t.links.next y = ys.head? := hc.drop.2.head_eq
    have hyys : y ∉ ys := by
      rw [nodup_append, nodup_cons] at hnd
      exact hnd.2.1.1
    simp only [head?_cons, wakeup1Loop, hnext]
    by_cases hch : (t.proc y).chan = chan
    · rw [if_pos hch]
      obtain ⟨i, k, L1, hL1, hs1, ho1, heq⟩ := wakeup1Proc_spec hL hy
      have hyxs : y ∉ xs := by
        rw [nodup_append] at hnd
        exact fun h => hnd.2.2 y h y (by simp) rfl
      rw [hs, erase_append_right _ hyxs, erase_cons_head] at hs1
      obtain ⟨k', L', hL', ho, heq'⟩ := ih (t := { t with
        proc := update t.proc y { t.proc y with state := .runnable }
        links := k }) xs hL1 hs1 (by simpa using hf)
      have hproc : (fun q => if q ∈ ys then
          (update t.proc y { t.proc y with state := .runnable } q).woken chan
            else update t.proc y { t.proc y with state := .runnable } q) =
          fun q => if q ∈ y :: ys then (t.proc q).woken chan else t.proc q := by
        funext q
        by_cases e : q = y
        · subst e
          simp [hyys, Proc.woken, hyst, hch]
        · simp [e]
      simp only [hproc] at hL' heq'
      refine ⟨k', L', hL', fun l h1 h2 => ?_, ?_⟩
      · rw [ho l h1 h2]
        exact ho1 l (fun e => h1 (by rw [e]; rfl)) (fun e => h2 (by rw [e]; rfl))
      · rw [heq, ok_bind, heq']
    · rw [if_neg hch]
      obtain ⟨k', L', hL', ho, heq'⟩ := ih (xs ++ [y]) hL (by simp [hs])
        (by simpa using hf : ys.length < fuel)
      have hproc : (fun q => if q ∈ ys then (t.proc q).woken chan else t.proc q) =
          fun q => if q ∈ y :: ys then (t.proc q).woken chan else t.proc q := by
        funext q
        by_cases e : q = y
        · subst e
          simp [hyys, Proc.woken, hch]
        · simp [e]
      rw [hproc] at hL' heq'
      exact ⟨k', L', hL', ho, by rw [ok_bind, heq']⟩

/-- `wakeup1` wakes exactly the processes that sleep on the channel. -/
theorem wakeup1_spec (chan : Chan) (hL : ListInv t.proc t.links L) :
    ∃ k L', ListInv (fun q => (t.proc q).woken chan) k L' ∧
      (∀ l, l.state ≠ .sleeping → l.state ≠ .runnable → L' l = L l) ∧
      wakeup1 chan t = .ok { t with proc := fun q => (t.proc q).woken chan, links := k } := by
  obtain ⟨k, L', hL', ho, heq⟩ := wakeup1Loop_spec chan [] hL
    (nil_append _).symm (hL.holds.length_lt .sleep)
  have hproc : (fun q => if q ∈ L .sleep then (t.proc q).woken chan else t.proc q) =
      fun q => (t.proc q).woken chan := by
    funext q
    by_cases hq : q ∈ L .sleep
    · rw [if_pos hq]
    · have hst : (t.proc q).state ≠ .sleeping := fun h => hq (hL.mem_of_state h nofun)
      simp [hq, Proc.woken, hst]
  rw [hproc] at hL' heq
  refine ⟨k, L', hL', ho, ?_⟩
  rw [wakeup1, (hL.chain .sleep).head_eq, heq]

/-- The search loop over a list. -/
theorem PTable.search_eq (hL : ListInv t.proc t.links L) (l : ListId)
    (q : Proc → Bool) : t.search l q = .ok ((L l).find? fun p => q (t.proc p)) := by
  rw [PTable.search, findNode_chain (hL.chain l) (hL.holds.length_lt l)]
  rfl

/-- A table change that moves processes from `SLEEPING` to `RUNNABLE` and changes no other
state. -/
def WakesOnly (t t' : PTable) : Prop :=
  ∀ q, (t'.proc q).state = (t.proc q).state ∨
    (t.proc q).state = .sleeping ∧ (t'.proc q).state = .runnable

theorem WakesOnly.refl (t : PTable) : WakesOnly t t := fun _ => .inl rfl

/-- Processes that are neither asleep nor ready keep their state. -/
theorem WakesOnly.state_eq {t t' : PTable} (h : WakesOnly t t') {q : Slot}
    (hs : (t.proc q).state ≠ .sleeping) : (t'.proc q).state = (t.proc q).state :=
  (h q).resolve_right fun h' => hs h'.1

theorem WakesOnly.update
    (hq : q.state = (t.proc p).state ∨ (t.proc p).state = .sleeping ∧ q.state = .runnable) :
    WakesOnly t { t with proc := update t.proc p q, links := k } := by
  intro r
  by_cases e : r = p
  · subst e
    simpa using hq
  · simp [update_of_ne e]

/-- Setting a field that decides no list keeps the invariant. -/
theorem ListInv.modify
    (h : ListInv proc k L) (hs : q.state = (proc p).state) (hp : q.priority = (proc p).priority) :
    ListInv (update proc p q) k L :=
  h.assign (Proc.list?_congr hs hp) (hp ▸ h.bound p)

/-- The fields of a process after `kill`. -/
def Proc.marked (q : Proc) : Proc :=
  { q with state := if q.state = .sleeping then .runnable else q.state, killed := true }

/-- The slots in the order in which `kill` looks at them. -/
def killOrder (L : Lists) : List Slot :=
  L .sleep ++ (L .embryo ++ ((List.finRange (MAX + 1)).flatMap (fun i => L (.ready i)) ++
    L .running))

/-- The process that `kill` finds. -/
def killTarget (L : Lists) (proc : Slot → Proc) (pid : UInt32) : Option Slot :=
  (killOrder L).find? fun p => decide ((proc p).pid = pid)

/-- `kill` looks at every process that is neither unused nor a zombie. -/
theorem mem_killOrder (hL : ListInv t.proc t.links L) :
    p ∈ killOrder L ↔ (t.proc p).state ≠ .unused ∧ (t.proc p).state ≠ .zombie := by
  simp only [killOrder, mem_append, mem_flatMap, mem_finRange, true_and]
  constructor
  · rintro (h | h | ⟨i, h⟩ | h)
    all_goals
      rw [hL.state h]
      exact ⟨nofun, nofun⟩
  · intro ⟨hu, hz⟩
    obtain ⟨l, hl⟩ := hL.exists_mem p
    have hs := hL.state hl
    cases l with
    | ready i => exact .inr (.inr (.inl ⟨i, hl⟩))
    | free => exact absurd hs hu
    | sleep => exact .inl hl
    | zombie => exact absurd hs hz
    | running => exact .inr (.inr (.inr hl))
    | embryo => exact .inr (.inl hl)

/-- `kill` on one list only marks a process of the list. -/
theorem killOn_eq (l : ListId) (pid : UInt32) (hL : ListInv t.proc t.links L) :
    killOn l pid t = .ok (((L l).find? fun p => decide ((t.proc p).pid = pid)).map fun p =>
      t.modProc p fun q => { q with killed := true }) := by
  rw [killOn, t.search_eq hL]
  rfl

/-- The search of `kill` over ready lists is a search over their processes in order. -/
theorem killReady_eq (pid : UInt32) (hL : ListInv t.proc t.links L) :
    ∀ is, killReady pid t is = .ok (((is.flatMap fun i => L (.ready i)).find? fun p =>
      decide ((t.proc p).pid = pid)).map fun p => t.modProc p fun q => { q with killed := true })
  | [] => rfl
  | i :: is => by
    rw [killReady, killOn_eq (.ready i) pid hL, ok_bind, List.flatMap_cons, List.find?_append]
    cases (L (.ready i)).find? fun p => decide ((t.proc p).pid = pid) with
    | none => simpa using killReady_eq pid hL is
    | some p => rfl

/-- The table after `kill` has found a process, or none. -/
def killedProcs (proc : Slot → Proc) : Option Slot → Slot → Proc
  | none => proc
  | some p => update proc p (proc p).marked

/-- `kill` marks the first process with the pid, wakes it if it sleeps, and changes nothing
else. -/
theorem kill_spec (pid : Int32) (hL : ListInv t.proc t.links L) :
    ∃ k L', ListInv (killedProcs t.proc (killTarget L t.proc pid.toUInt32)) k L' ∧
      kill pid t = .ok (if (killTarget L t.proc pid.toUInt32).isSome then 0 else -1,
        { t with proc := killedProcs t.proc (killTarget L t.proc pid.toUInt32), links := k }) := by
  simp only [killTarget, killOrder, find?_append, kill, t.search_eq hL, ok_bind,
    killOn_eq _ _ hL, killReady_eq _ hL]
  have marked {p : Slot} (hs : (t.proc p).state ≠ .sleeping) :
      (t.modProc p fun q => { q with killed := true }) =
        { t with proc := killedProcs t.proc (some p) } := by
    simp [PTable.modProc, killedProcs, Proc.marked, hs]
  have hmarked {p : Slot} (hs : (t.proc p).state ≠ .sleeping) :
      ListInv (killedProcs t.proc (some p)) t.links L :=
    hL.modify (by simp [Proc.marked, hs]) rfl
  cases hf : (L .sleep).find? fun p => decide ((t.proc p).pid = pid.toUInt32) with
  | some p =>
    have hp : p ∈ L .sleep := mem_of_find?_eq_some hf
    have hst : (t.proc p).state = .sleeping := hL.state hp
    obtain ⟨k, hk, hw⟩ := hL.remove hp
    obtain ⟨i, k', hl, hk', hI⟩ := hw.ready (q := (t.proc p).marked) (by simp [Proc.marked, hst])
      (hL.bound p)
    refine ⟨k', _, hI, ?_⟩
    simp only [hk, ok_bind]
    rw [panicIf_neg (by decide), ok_bind, assertstate_ok (by exact hst)]
    have hm : { t.proc p with state := .runnable, killed := true } = (t.proc p).marked := by
      simp [Proc.marked, hst]
    simp only [ok_bind, PTable.modProc, update_self, hm]
    rw [hl, ok_bind, hk', ok_bind]
    dsimp only
    rw [panicIf_neg (by decide)]
    rfl
  | none =>
    -- the process is on a list that `kill` does not change, so only `killed` is set
    have hfound {l : ListId} {p : Slot} (hl : l.state ≠ .sleeping)
        (hf : (L l).find? (fun p => decide ((t.proc p).pid = pid.toUInt32)) = some p) :
        (t.proc p).state ≠ .sleeping := by
      rw [hL.state (mem_of_find?_eq_some hf)]
      exact hl
    cases hf1 : (L .embryo).find? fun p => decide ((t.proc p).pid = pid.toUInt32) with
    | some p =>
      have hs := hfound (l := .embryo) nofun hf1
      exact ⟨t.links, L, hmarked hs, congrArg (fun t' => Except.ok (0, t')) (marked hs)⟩
    | none =>
      cases hf2 : ((List.finRange (MAX + 1)).flatMap fun i => L (.ready i)).find?
          fun p => decide ((t.proc p).pid = pid.toUInt32) with
      | some p =>
        have hs : (t.proc p).state ≠ .sleeping := by
          obtain ⟨i, -, hi⟩ := mem_flatMap.1 (mem_of_find?_eq_some hf2)
          rw [hL.state hi]
          exact nofun
        exact ⟨t.links, L, hmarked hs, congrArg (fun t' => Except.ok (0, t')) (marked hs)⟩
      | none =>
        cases hf3 : (L .running).find? fun p => decide ((t.proc p).pid = pid.toUInt32) with
        | some p =>
          have hs := hfound (l := .running) nofun hf3
          exact ⟨t.links, L, hmarked hs, congrArg (fun t' => Except.ok (0, t')) (marked hs)⟩
        | none => exact ⟨t.links, L, hL, rfl⟩

/-- `kill` changes no state but that of a sleeping process. -/
theorem WakesOnly.killed (found : Option Slot) (k : Links) :
    WakesOnly t { t with proc := killedProcs t.proc found, links := k } := by
  cases found with
  | none => exact .refl t
  | some p =>
    refine WakesOnly.update ?_
    rcases eq_or_ne (t.proc p).state .sleeping with hs | hs
    · exact .inr ⟨hs, by simp [Proc.marked, hs]⟩
    · exact .inl (by simp [Proc.marked, hs])

end

end TronBoss
