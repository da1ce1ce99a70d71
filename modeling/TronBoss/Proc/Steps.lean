import TronBoss.Proc.Safety

/-!
# What a step of the machine does

Every step from a state that satisfies `Sys.Inv` has one of the effects of `Sys.Trans`
(`Sys.Inv.trans`), so that an invariant over whole runs is shown by cases on `Sys.Trans`, without
looking at the routines again. Here are the parts of these effects that other modules use.
-/

namespace TronBoss

open Lib Function

section
variable {s s' : Sys} {c : Fin NCPU} {p : Slot}

@[simp] theorem Sys.swtch_t (b : Bool) : (s.swtch c b).t = s.t := by
  unfold swtch
  split <;> rfl

@[simp] theorem Sys.swtch_cont (b : Bool) : (s.swtch c b).cont = s.cont := by
  unfold swtch
  split <;> rfl

/-- A process that is resumed in `sleep` clears its channel and, unless it is in `wait`, leaves the
routine. -/
theorem Sys.resume_eq (b : Bool) :
    ((s.resume c p b).t = s.t ∧ (s.resume c p b).cont = s.cont ∧ s.cont p ≠ .asleep) ∨
    ((s.resume c p b).t = s.t.modProc p (fun q => { q with chan := .null }) ∧
      ((s.cont p = .wait ∧ (s.resume c p b).cont = s.cont) ∨
        (s.cont p = .asleep ∧ (s.resume c p b).cont = update s.cont p .other))) := by
  unfold resume
  cases hc : s.cont p with
  | wait => exact .inr (by simp [setCpu, hc])
  | asleep => exact .inr (by simp [setCpu, setCont, hc])
  | other | alloc np | fork np | copied np => exact .inl (by simp [setCpu, hc])

/-- The globals of the table when a process is resumed. -/
theorem Sys.resume_t (b : Bool) : (s.resume c p b).t.ticks = s.t.ticks ∧
    (s.resume c p b).t.promoteAtTime = s.t.promoteAtTime ∧
    (s.resume c p b).t.nextpid = s.t.nextpid ∧ (s.resume c p b).t.initproc = s.t.initproc := by
  rcases resume_eq (s := s) (c := c) (p := p) b with ⟨ht, -⟩ | ⟨ht, -⟩ <;> rw [ht] <;>
    exact ⟨rfl, rfl, rfl, rfl⟩

theorem Sys.resume_cpu (b : Bool) :
    (s.resume c p b).cpu = update s.cpu c (.run p b) := by
  unfold resume
  cases hc : s.cont p <;> simp [setCpu, setCont, hc]

theorem Sys.current_eq_ok {α : Type} {r : α} {f : Slot × Bool → Except Stop α}
    (h : (s.current c >>= f) = .ok r) : ∃ p b, s.cpu c = .run p b ∧ f (p, b) = .ok r := by
  unfold current at h
  cases hc : s.cpu c with
  | run p b =>
    rw [hc] at h
    exact ⟨p, b, rfl, h⟩
  | idle | loop i =>
    rw [hc] at h
    cases h

end

end TronBoss
