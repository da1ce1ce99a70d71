import TronBoss.Proc.Steps

/-!
# The deadline of the promotion

The scheduler promotes when `PromoteAtTime == ticks`, and then sets the deadline `TICKS_TO_PROMOTE`
ahead. `Sys.ahead` is the distance from the clock to the deadline, modulo `2^32`: a tick lowers it by
one, a turn of the scheduler at distance zero sets it back, and nothing else changes it
(`Sys.Trans.ahead`). So the distance stays in range as long as every tick finds the deadline still
ahead of it, and a tick at distance zero makes the test miss the deadline until the counter has come
around.
-/

namespace TronBoss

open Lib

/-- How far the deadline of the promotion is ahead of the clock. -/
def Sys.ahead (s : Sys) : UInt32 := s.t.promoteAtTime - s.t.ticks

/-- The deadline is ahead of the clock by at most the period. -/
def Sys.Pending (s : Sys) : Prop := 1 ≤ s.ahead.toNat ∧ s.ahead.toNat ≤ TICKS_TO_PROMOTE.toNat

instance (s : Sys) : Decidable s.Pending := inferInstanceAs (Decidable (_ ∧ _))

/-- The clock advances only when no promotion is due. -/
def OnTime (s : Sys) (a : Act) : Prop := a = .tick → s.t.promoteAtTime ≠ s.t.ticks

/-- A turn of the scheduler. -/
def Act.isTurn : Act → Bool
  | .turn _ => true
  | _ => false

section
variable {s s' s₁ s₂ : Sys} {a : Act} {c : Fin NCPU}

theorem ahead_eq_zero : s.ahead = 0 ↔ s.t.promoteAtTime = s.t.ticks := by
  rw [Sys.ahead, UInt32.sub_eq_iff_eq_add, UInt32.zero_add]

/-- What the steps do to the distance. -/
theorem Sys.Trans.ahead (ht : s.Trans a s') :
    s'.ahead =
      if a = .tick then s.ahead - 1
      else if a.isTurn ∧ s.ahead = 0 then TICKS_TO_PROMOTE
      else s.ahead := by
  have hsame : s'.t.ticks = s.t.ticks → s'.t.promoteAtTime = s.t.promoteAtTime →
      s'.ahead = s.ahead := fun h1 h2 => by rw [Sys.ahead, Sys.ahead, h1, h2]
  have hturn : s'.t.ticks = s.t.ticks → s'.t.promoteAtTime = s.t.looked.promoteAtTime →
      s'.ahead = if s.ahead = 0 then TICKS_TO_PROMOTE else s.ahead := by
    intro h1 h2
    rw [Sys.ahead, h1, h2, PTable.looked, ite_cond_congr (propext ahead_eq_zero)]
    split
    · rw [UInt32.add_comm, UInt32.add_sub_cancel]
    · rfl
  cases ht with
  | tick =>
    rw [if_pos rfl]
    change s.t.promoteAtTime - (s.t.ticks + 1) = s.t.promoteAtTime - s.t.ticks - 1
    grind
  | advance hc hl hr hi | pass hc hl hr => simpa [Act.isTurn] using hturn hr.ticks hr.promoteAtTime
  | dispatch k hc hl hr hp =>
    simpa [Act.isTurn] using hturn ((Sys.resume_t _).1.trans hr.ticks)
      ((Sys.resume_t _).2.1.trans hr.promoteAtTime)
  | forkFail k hc hl hp =>
    rcases hp with ⟨rfl, -⟩ | ⟨rfl, -⟩ <;> simpa [Act.isTurn] using hsame rfl rfl
  | setpriority hc hl ho hr => simpa [Act.isTurn] using hsame hr.ticks hr.promoteAtTime
  | exit k hc hl ho hi | waitSleep k hc hw hno | yield k hc hl | sleep k hc hl ho =>
    simpa [Act.isTurn] using hsame (by simp) (by simp)
  | forkFull hc hl ho => simp [Act.isTurn]
  | _ => simpa [Act.isTurn] using hsame rfl rfl

/-- While every tick is on time, the deadline is at most the period ahead. -/
theorem ahead_le (h : Sys.Run OnTime (.init booted) s) :
    s.ahead.toNat ≤ TICKS_TO_PROMOTE.toNat := by
  induction h with
  | refl => decide +kernel
  | @step s s' a hrun hon hs ih =>
    have hI := (hrun.reachable (.init userinit_eq)).inv
    rw [(hI.trans hs).ahead]
    split
    · next ha =>
      have hne : s.ahead.toNat ≠ 0 := fun h0 =>
        hon ha (ahead_eq_zero.1 (UInt32.toNat_inj.1 h0))
      have hle : (1 : UInt32) ≤ s.ahead := UInt32.le_iff_toNat_le.2 (Nat.one_le_iff_ne_zero.2 hne)
      rw [UInt32.toNat_sub_of_le _ _ hle]
      exact (Nat.sub_le ..).trans ih
    · split
      · exact le_rfl
      · exact ih

/-- Without a turn of the scheduler, every tick brings the deadline one closer. -/
theorem run_ahead : ∀ {as : List Act} {s : Sys}, s.Reachable → (∀ a ∈ as, ¬ a.isTurn) →
    s.run as = .ok s' → s'.ahead = s.ahead - UInt32.ofNat (as.count .tick)
  | [], s, _, _, hr => by
    cases hr
    simp
  | a :: as, s, h, hno, hr => by
    rw [Sys.run, List.foldlM_cons] at hr
    obtain ⟨s₁, h1, h2⟩ := bind_eq_ok.1 hr
    rw [run_ahead (h.step h1) (fun a ha => hno a (List.mem_cons_of_mem _ ha)) h2,
      (h.inv.trans h1).ahead, if_neg (c := a.isTurn ∧ _) fun h' => hno a List.mem_cons_self h'.1]
    split
    · next ha =>
      rw [ha, List.count_cons_self, UInt32.ofNat_add]
      grind
    · next ha => rw [List.count_cons_of_ne ha]

/-- After a run whose ticks were all on time, let any steps follow that are no turns of the scheduler,
and then a turn. The turn leaves the deadline ahead of the clock by at most the period exactly if the
clock has not passed the deadline in between, or has come around to at most the period before it. -/
theorem promotion_pending_iff {as : List Act} (h : Sys.Run OnTime (.init booted) s)
    (hno : ∀ a ∈ as, ¬ a.isTurn) (hrun : s.run as = .ok s₁) (hturn : s₁.step (.turn c) = .ok s₂) :
    s₂.Pending ↔ as.count .tick % 2 ^ 32 ≤ s.ahead.toNat ∨
      2 ^ 32 + s.ahead.toNat ≤ as.count .tick % 2 ^ 32 + TICKS_TO_PROMOTE.toNat := by
  have hs := h.reachable (.init userinit_eq)
  have hle := ahead_le h
  have hahead := ((hs.run hrun).inv.trans hturn).ahead
  have hx : s₁.ahead.toNat =
      (2 ^ 32 - as.count .tick % 2 ^ 32 + s.ahead.toNat) % 2 ^ 32 := by
    rw [run_ahead hs hno hrun, UInt32.toNat_sub, UInt32.toNat_ofNat']
  have hiff : s₂.Pending ↔ s₁.ahead.toNat ≤ TICKS_TO_PROMOTE.toNat := by
    simp only [reduceCtorEq, if_false, Act.isTurn, true_and] at hahead
    rw [Sys.Pending, hahead]
    split
    · next h0 =>
      rw [h0]
      decide
    · next h0 =>
      have hne : s₁.ahead.toNat ≠ 0 := fun h => h0 (UInt32.toNat_inj.1 h)
      exact ⟨And.right, fun h => ⟨Nat.one_le_iff_ne_zero.2 hne, h⟩⟩
  rw [hiff, hx]
  omega

/-- The first turn after boot, with all the ticks up to the deadline before it. -/
theorem promotion_pending_iff_atDeadline :
    ∃ s₁ s₂, (Sys.init booted).run (List.replicate 1100 .tick ++ [.enter cpu0]) = .ok s₁ ∧
      s₁.step (.turn cpu0) = .ok s₂ ∧ s₂.Pending := by
  have hrun : ((Sys.init booted).run
      (List.replicate 1100 .tick ++ [.enter cpu0])).toOption.any
        (fun s => (s.step (.turn cpu0)).toOption.any fun _ => true) = true := by
    decide +kernel
  obtain ⟨s₁, hs₁, hf⟩ := exists_ok hrun
  obtain ⟨s₂, hs₂, -⟩ := exists_ok hf
  exact ⟨s₁, s₂, hs₁, hs₂,
    (promotion_pending_iff .refl (by decide +kernel) hs₁ hs₂).2 (.inl (by decide +kernel))⟩

/-- One tick more, and the deadline is missed. -/
theorem promotion_lost_oneTickLate :
    ∃ s, (Sys.init booted).run (List.replicate 1101 .tick ++ [.enter cpu0, .turn cpu0]) = .ok s ∧
      ¬ s.Pending := by
  have hrun : ((Sys.init booted).run
      (List.replicate 1101 .tick ++ [.enter cpu0, .turn cpu0])).toOption.any
        (fun s => decide ¬ s.Pending) = true := by
    decide +kernel
  obtain ⟨s, hs, hf⟩ := exists_ok hrun
  exact ⟨s, hs, of_decide_eq_true hf⟩

end

end TronBoss
