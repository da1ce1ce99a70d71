import TronBoss.Proc.Changes
import TronBoss.Proc.Dispatch

/-!
# Process identifiers

`allocproc` takes the next value of a counter, which comes around to zero after `2^32` processes,
counting those of failed `fork`s. Until then the pids in use are distinct and below the counter
(`Sys.Numbered`); the first slot that is taken once the counter is at zero gets the pid zero, and
the next one the pid of `initproc`.
-/

namespace TronBoss

open Lib Function

/-- The processes have pids that are not zero and distinct. -/
def Sys.PidsUnique (s : Sys) : Prop :=
  (∀ p, (s.t.proc p).state ≠ .unused → (s.t.proc p).pid ≠ 0) ∧
  ∀ p q, (s.t.proc p).state ≠ .unused → (s.t.proc q).state ≠ .unused →
    (s.t.proc p).pid = (s.t.proc q).pid → p = q

/-- No slot is taken once the counter has come around. -/
def FreshPid (s : Sys) (a : Act) : Prop :=
  ∀ c, a = .fork c → s.t.links.head .free ≠ none → s.t.nextpid ≠ 0

instance (s : Sys) (a : Act) : Decidable (FreshPid s a) := inferInstanceAs (Decidable (∀ _, _))

/-- The pids in use are distinct, and below the counter until it comes around. -/
structure Sys.Numbered (s : Sys) : Prop where
  unique : s.PidsUnique
  below : ∀ p, (s.t.proc p).state ≠ .unused → s.t.nextpid ≠ 0 → (s.t.proc p).pid < s.t.nextpid

section
variable {s s' : Sys} {a : Act} {c : Fin NCPU}

/-- A step takes the slot of the next pid, or leaves the counter and the pids alone. -/
theorem Sys.Inv.takes (hI : s.Inv) (hs : s.step a = .ok s') :
    (∃ c p np k, a = .fork c ∧ (s.t.proc np).state = .unused ∧
      s' = { s.setCont p (.alloc np) with
        t := { s.t.put (update s.t.proc np
                { s.t.proc np with state := .embryo, pid := s.t.nextpid }) k with
          nextpid := s.t.nextpid + 1 } }) ∨
    s'.t.nextpid = s.t.nextpid ∧ ∀ q, (s'.t.proc q).state ≠ .unused →
      (s.t.proc q).state ≠ .unused ∧ (s'.t.proc q).pid = (s.t.proc q).pid := by
  have hkeep : (∀ c, a ≠ .fork c) → ∀ q, (s'.t.proc q).state ≠ .unused →
      (s.t.proc q).state ≠ .unused ∧ (s'.t.proc q).pid = (s.t.proc q).pid := fun ha q hq =>
    ((hI.change hs q).pid hI hq).resolve_right fun h => h.2.1.elim ha
  cases hI.trans hs with
  | forkFull _ _ _ => exact .inr ⟨rfl, fun q hq => ⟨hq, rfl⟩⟩
  | @fork c p b np k _ _ _ hnp => exact .inl ⟨c, p, np, k, rfl, hnp, rfl⟩
  | forkFail k _ _ hp =>
    refine .inr ⟨rfl, hkeep ?_⟩
    rcases hp with ⟨rfl, -⟩ | ⟨rfl, -⟩ <;> exact nofun
  | setpriority _ _ _ hr | advance _ _ hr _ | pass _ _ hr => exact .inr ⟨hr.nextpid, hkeep nofun⟩
  | dispatch k _ _ hr _ =>
    refine .inr ⟨?_, hkeep nofun⟩
    exact (resume_t _).2.2.1.trans hr.nextpid
  | exit k _ _ _ _ | waitSleep k _ _ _ | yield k _ _ | sleep k _ _ _ =>
    exact .inr ⟨by simp [PTable.put], hkeep nofun⟩
  | _ => exact .inr ⟨rfl, hkeep nofun⟩

theorem ListInv.head_free {proc : Slot → Proc} {k : Links} {L : Lists} (hL : ListInv proc k L) :
    k.head .free ≠ none ↔ ∃ q, (proc q).state = .unused := by
  rw [Ne, hL.head_eq_none, List.eq_nil_iff_forall_not_mem, not_forall_not]
  exact exists_congr fun q => ⟨hL.state, fun h => hL.mem_of_state (l := .free) h nofun⟩

/-- A slot that is taken gets the next pid. -/
theorem Sys.Numbered.take {p np : Slot} {k : Links} (h : s.Numbered) (h0 : s.t.nextpid ≠ 0) :
    Sys.Numbered { s.setCont p (.alloc np) with
      t := { s.t.put (update s.t.proc np
              { s.t.proc np with state := .embryo, pid := s.t.nextpid }) k with
        nextpid := s.t.nextpid + 1 } } := by
  have hlt : ∀ q, (s.t.proc q).state ≠ .unused → (s.t.proc q).pid < s.t.nextpid :=
    fun q hq => h.below q hq h0
  refine ⟨⟨fun q hq => ?_, fun q r hq hr he => ?_⟩, fun q hq hn => ?_⟩
  · dsimp only [PTable.put_proc] at hq ⊢
    rcases eq_or_ne q np with rfl | hne
    · rwa [update_self]
    · rw [update_of_ne hne] at hq ⊢
      exact h.unique.1 q hq
  · dsimp only [PTable.put_proc] at hq hr he
    rcases eq_or_ne q np with rfl | hqn
    · rcases eq_or_ne r q with rfl | hrn
      · rfl
      · rw [update_of_ne hrn] at hr he
        rw [update_self] at he
        exact absurd (hlt r hr) (by rw [← he]; exact UInt32.lt_irrefl _)
    · rw [update_of_ne hqn] at hq he
      rcases eq_or_ne r np with rfl | hrn
      · rw [update_self] at he
        exact absurd (hlt q hq) (by rw [he]; exact UInt32.lt_irrefl _)
      · rw [update_of_ne hrn] at hr he
        exact h.unique.2 q r hq hr he
  · have hsucc : s.t.nextpid < s.t.nextpid + 1 := by
      have hne : (s.t.nextpid + 1).toNat ≠ 0 := fun e => hn (UInt32.toNat_inj.1 e)
      rw [UInt32.toNat_add] at hne
      rw [UInt32.lt_iff_toNat_lt, UInt32.toNat_add]
      have := s.t.nextpid.toNat_lt
      simp only [UInt32.toNat_one] at hne ⊢
      omega
    dsimp only [PTable.put_proc] at hq ⊢
    rcases eq_or_ne q np with rfl | hne
    · rwa [update_self]
    · rw [update_of_ne hne] at hq ⊢
      exact UInt32.lt_trans (hlt q hq) hsucc

/-- A step that takes no slot at zero keeps the pids distinct. -/
theorem Sys.Numbered.step (h : s.Numbered) (hI : s.Inv) (hf : FreshPid s a)
    (hs : s.step a = .ok s') : s'.Numbered := by
  rcases hI.takes hs with ⟨c, p, np, k, rfl, hnp, rfl⟩ | ⟨hn, hpid⟩
  · obtain ⟨L, hL⟩ := hI.table
    exact h.take (hf c rfl (hL.head_free.2 ⟨np, hnp⟩))
  · refine ⟨⟨fun q hq => ?_, fun q r hq hr he => ?_⟩, fun q hq h0 => ?_⟩
    · rw [(hpid q hq).2]
      exact h.unique.1 q (hpid q hq).1
    · rw [(hpid q hq).2, (hpid r hr).2] at he
      exact h.unique.2 q r (hpid q hq).1 (hpid r hr).1 he
    · rw [hn] at h0 ⊢
      rw [(hpid q hq).2]
      exact h.below q (hpid q hq).1 h0

/-- The table after `userinit` is numbered. -/
theorem numbered_booted : (Sys.init booted).Numbered := by
  have huse : ∀ q, (booted.proc q).state ≠ .unused → q = initSlot := by
    intro q hq
    rw [booted_proc] at hq
    rcases eq_or_ne q initSlot with h | h
    · exact h
    · rw [if_neg h] at hq
      exact absurd rfl hq
  have hpid : (booted.proc initSlot).pid = 1 := by rw [booted_proc, if_pos rfl]
  refine ⟨⟨fun q hq => ?_, fun q r hq hr _ => ?_⟩, fun q hq _ => ?_⟩
  · rw [huse q hq]
    exact hpid ▸ by decide
  · rw [huse q hq, huse r hr]
  · rw [huse q hq]
    exact hpid ▸ by decide +kernel

theorem numbered_of_run (h : Sys.Run FreshPid (.init booted) s) : s.Numbered := by
  induction h with
  | refl => exact numbered_booted
  | step hrun hf hs ih => exact ih.step (hrun.reachable (.init userinit_eq)).inv hf hs

/-! ## The counter comes around -/

section
variable {p np : Slot} {b : Bool}

/-- `allocproc` takes the first slot of the free list. -/
theorem allocprocTake_head {t t' : PTable} (h : allocprocTake t = .ok (some np, t')) :
    t.links.head .free = some np := by
  unfold allocprocTake at h
  split at h
  · cases h
  · next p hp =>
    obtain ⟨-, -, h⟩ := bind_eq_ok.1 h
    obtain ⟨-, -, h⟩ := bind_eq_ok.1 h
    cases h
    exact hp

/-- The first section of a `fork`, when there is a free slot. -/
theorem Sys.Inv.fork_take (hI : s.Inv) (hc : s.cpu c = .run p b) (hl : s.lock = none)
    (ho : s.cont p = .other) (hfree : ∃ q, (s.t.proc q).state = .unused) :
    ∃ np s', (s.t.proc np).state = .unused ∧ s.t.links.head .free = some np ∧
      s.step (.fork c) = .ok s' ∧ s'.t.proc =
        update s.t.proc np { s.t.proc np with state := .embryo, pid := s.t.nextpid } := by
  obtain ⟨L, hL⟩ := hI.table
  rcases allocprocTake_spec hL with ⟨-, hno⟩ | ⟨np, k, L', hnp, -, heq⟩
  · obtain ⟨q, hq⟩ := hfree
    exact absurd hq (hno q)
  · have hs : s.step (.fork c) = .ok { s.setCont p (.alloc np) with
        t := { s.t with
          proc := update s.t.proc np
            { s.t.proc np with state := .embryo, pid := s.t.nextpid }
          links := k
          nextpid := s.t.nextpid + 1 } } := by
      simp only [Sys.step, current, hc, ok_bind]
      rw [require_pos ⟨hl, ho⟩, ok_bind, heq]
      rfl
    exact ⟨np, _, hnp, allocprocTake_head heq, hs, rfl⟩

end

/-- As long as no slot is taken with the counter at zero, the processes have pids that are distinct
and not zero; and the first step that takes one breaks this. -/
theorem pids_unique_iff (h : Sys.Run FreshPid (.init booted) s) :
    s.PidsUnique ∧ ∀ a s', s.step a = .ok s' → (s'.PidsUnique ↔ FreshPid s a) := by
  have hN := numbered_of_run h
  have hI := (h.reachable (.init userinit_eq)).inv
  refine ⟨hN.unique, fun a s' hs => ⟨fun hu c ha hfree h0 => ?_, fun hf =>
    (hN.step hI hf hs).unique⟩⟩
  subst ha
  obtain ⟨p, b, hc, hs'⟩ := Sys.current_eq_ok hs
  obtain ⟨⟨hl, ho⟩, -⟩ := require_bind_eq_ok hs'
  obtain ⟨L, hL⟩ := hI.table
  obtain ⟨np, s'', -, -, hfork, hproc⟩ := hI.fork_take hc hl ho (hL.head_free.1 hfree)
  cases hfork.symm.trans hs
  refine hu.1 np ?_ ?_
  · rw [hproc, update_self]
    exact nofun
  · rw [hproc, update_self, h0]

/-- The slot of the child that was freed has another process in it, and the pids are distinct. -/
theorem pids_unique_forkWaitRun :
    ∃ s, (Sys.init booted).runIf FreshPid forkWaitRun = .ok s ∧ s.PidsUnique ∧
      (s.t.proc initSlot).pid = 1 ∧ (s.t.proc secondSlot).pid = 3 ∧ (s.t.proc childSlot).pid = 4 := by
  have hrun : ((Sys.init booted).runIf FreshPid forkWaitRun).toOption.any (fun s => decide
      ((s.t.proc initSlot).pid = 1 ∧ (s.t.proc secondSlot).pid = 3 ∧
        (s.t.proc childSlot).pid = 4)) = true := by
    decide +kernel
  obtain ⟨s, hs, hf⟩ := exists_ok hrun
  exact ⟨s, hs, (pids_unique_iff (.of_runIf hs)).1, of_decide_eq_true hf⟩

/-- The state after `fork`s that found no memory: the counter is at `n`, and the slot that they took
keeps the last pid. -/
def Sys.counted (s : Sys) (np : Slot) (n : UInt32) : Sys :=
  { s with t := { s.t with
    proc := update s.t.proc np { s.t.proc np with pid := n - 1 }, nextpid := n } }

theorem Sys.counted_counted (s : Sys) (np : Slot) (m n : UInt32) :
    (s.counted np m).counted np n = s.counted np n := by
  simp only [counted, update_self, update_idem]

/-- The first free slot, taken and given back, leaves the links as they were. -/
theorem links_taken_given {k : Links} {np : Slot} (hfree : k.head .free = some np)
    (hembryo : k.head .embryo = none) :
    ∃ k', removefromfront .free k = (0, k') ∧
      removefromlist .embryo (some np) (addtofrontoflist .embryo (some np) k') = .ok (0, k') ∧
      addtofrontoflist .free (some np) k' = k := by
  obtain ⟨head, next⟩ := k
  dsimp only at hfree hembryo
  have hf : update head .free (some np) = head := by rw [← hfree, update_eq_self]
  refine ⟨(Links.setHead ⟨head, next⟩ .free (next np)).setNext np none, ?_, ?_, ?_⟩
  · simp only [removefromfront, hfree]
  · simp [removefromlist, addtofrontoflist, Links.setHead, Links.setNext, hembryo]
  · simp [addtofrontoflist, Links.setHead, Links.setNext, hf]

/-- A `fork` that finds no memory for a kernel stack uses up a pid and changes nothing else. -/
theorem Sys.run_failed_fork {p np : Slot} {b : Bool} (hc : s.cpu c = .run p b) (hl : s.lock = none)
    (ho : s.cont p = .other) (hfree : s.t.links.head .free = some np)
    (hembryo : s.t.links.head .embryo = none) (hnp : (s.t.proc np).state = .unused) :
    s.run [.fork c, .forkStack c false] = .ok (s.counted np (s.t.nextpid + 1)) := by
  obtain ⟨k', hk', hk'', hback⟩ := links_taken_given hfree hembryo
  obtain ⟨t, cpu, cont, lock⟩ := s
  dsimp only at *
  have htake : allocprocTake t = .ok (some np, { t with
      proc := update t.proc np { t.proc np with state := .embryo, pid := t.nextpid }
      links := addtofrontoflist .embryo (some np) k'
      nextpid := t.nextpid + 1 }) := by
    simp only [allocprocTake, hfree, hk', panicIf, assertstate, PTable.modProc, hnp]
    simp
  have hcont : update cont p .other = cont := by rw [← ho, update_eq_self]
  simp only [Sys.run, List.foldlM_cons, List.foldlM_nil, Sys.step, current, setCont, hc, hl,
    ho, htake, ok_bind, pure_eq_ok, require_pos, and_self, update_self, Bool.false_eq_true, if_false,
    allocprocFail, unallocproc, hk'', assertstate_ok]
  simp [panicIf, PTable.modProc, counted, hback, hcont, hnp]

/-- Such a `fork` can be made again and again: the counter takes every value. -/
theorem Sys.Reachable.counted {p np : Slot} {b : Bool} (h : s.Reachable) (hc : s.cpu c = .run p b)
    (hl : s.lock = none) (ho : s.cont p = .other) (hfree : s.t.links.head .free = some np)
    (hembryo : s.t.links.head .embryo = none) (hnp : (s.t.proc np).state = .unused) (n : Nat) :
    (s.counted np (s.t.nextpid + 1 + UInt32.ofNat n)).Reachable := by
  induction n with
  | zero => exact h.run (by simpa using run_failed_fork hc hl ho hfree hembryo hnp)
  | succ n ih =>
    have hfail := run_failed_fork (s := s.counted np (s.t.nextpid + 1 + UInt32.ofNat n)) hc hl ho hfree
      hembryo (by simpa [Sys.counted] using hnp)
    rw [counted_counted] at hfail
    rw [UInt32.ofNat_add, ← UInt32.add_assoc]
    exact ih.run hfail

/-- The boot, `fork`s of `initproc` that find no memory until the counter is at `n`, and the steps
`as`. -/
def countedRun (n : UInt32) (as : List Act) : Except Stop Sys := do
  let s ← (Sys.init booted).run [.enter cpu0, .turn cpu0]
  (s.counted childSlot n).run as

/-- The failed `fork`s are steps of the system, so the state is reachable. -/
theorem reachable_countedRun {n : UInt32} {as : List Act} {s' : Sys} (h : countedRun n as = .ok s') :
    s'.Reachable := by
  have hrun : ((Sys.init booted).run [.enter cpu0, .turn cpu0]).toOption.any (fun s =>
      decide (s.cpu cpu0 = .run initSlot false ∧ s.lock = none ∧ s.cont initSlot = .other ∧
        s.t.links.head .free = some childSlot ∧ s.t.links.head .embryo = none ∧
        (s.t.proc childSlot).state = .unused)) = true := by
    decide +kernel
  obtain ⟨s, hs, hf⟩ := exists_ok hrun
  obtain ⟨hc, hl, ho, hfree, hembryo, hnp⟩ := of_decide_eq_true hf
  have hr : s.Reachable := (Sys.Reachable.init userinit_eq).run hs
  have hn := hr.counted hc hl ho hfree hembryo hnp (n - (s.t.nextpid + 1)).toNat
  rw [UInt32.ofNat_toNat, UInt32.add_comm, UInt32.sub_add_cancel] at hn
  rw [countedRun, hs] at h
  exact hn.run h

/-- After `2 ^ 32 - 1` `fork`s the next slot gets the pid of `initproc`. -/
theorem pids_not_unique_afterWrap : ∃ s : Sys, s.Reachable ∧ ¬ s.PidsUnique := by
  have hrun : (countedRun 1 [.fork cpu0]).toOption.any (fun s => decide
      ((s.t.proc initSlot).state ≠ .unused ∧ (s.t.proc childSlot).state ≠ .unused ∧
        (s.t.proc initSlot).pid = (s.t.proc childSlot).pid)) = true := by
    decide +kernel
  obtain ⟨s, hs, hf⟩ := exists_ok hrun
  obtain ⟨hi, hc, hpid⟩ := of_decide_eq_true hf
  exact ⟨s, reachable_countedRun hs, fun hu => absurd (hu.2 _ _ hi hc hpid) (by decide)⟩

end

end TronBoss
