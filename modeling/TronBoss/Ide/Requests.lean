import TronBoss.Ide.Queue

/-!
# The requests of `iderw`

In every run without device errors the requests are served in the order of their arrival, each once,
and `iderw` returns when its buffer is in step with the disk and not before.
-/

namespace TronBoss.Ide

open Lib Function

variable {P : Type}

/-! ## What `iderw` does -/

/-- The process is in `iderw` for the buffer. -/
def Pc.In (pc : Pc) (b : Fin NBUF) (want : Option Block) : Prop :=
  pc = .called b want ∨ pc.Waits b want

section
variable {s : Driver P} {q : List (Fin NBUF)}

theorem Pc.In.buf?_eq {pc : Pc} {b : Fin NBUF} {want : Option Block} (h : pc.In b want) :
    pc.buf? = some b := by
  rcases h with rfl | rfl | rfl <;> rfl

/-- The requests are started and finished in the order in which they arrive, each once: `q` are those
that are not finished, and of these the first has been started. The device works on the first one, or
has raised the interrupt for it. -/
structure Driver.InOrder (s : Driver P) (q : List (Fin NBUF)) : Prop where
  queue : Chain s.qnext s.idequeue q
  arrived : s.arrived = s.finished ++ q
  started : s.started = s.finished ++ q.take 1
  active : ∀ c, s.device.command = some c → ∃ b, q.head? = some b ∧ c = (s.buf b).command
  pending : q ≠ [] → s.device.command ≠ none ∨ s.device.irq = true

/-- The invariant of the driver puts the requests in order. -/
theorem Driver.Inv.inOrder (h : s.Inv q) : s.InOrder q := by
  refine ⟨h.chain, h.arrived, h.started, fun c hc => ?_, fun hq => ?_⟩
  · cases q with
    | nil =>
      rw [h.serves.1] at hc
      cases hc
    | cons b q =>
      refine ⟨b, rfl, ?_⟩
      cases h.serves.2 with
      | busy hc' => exact Option.some.inj (hc.symm.trans hc')
      | read hc' | written hc' =>
        rw [hc'] at hc
        cases hc
  · cases q with
    | nil => exact absurd rfl hq
    | cons b q =>
      cases h.serves.2 with
      | busy hc => exact .inl (by simp [hc])
      | read _ hirq | written _ hirq => exact .inr hirq

variable [DecidableEq P]

/-- The process gets out of `iderw` only with a buffer that is `B_VALID`, not `B_DIRTY`, and equal to
its block on the disk, and when the buffer is `B_VALID` and not `B_DIRTY`, it gets out with its next
step. -/
structure Driver.Returns (s : Driver P) (p : P) (b : Fin NBUF) (want : Option Block) : Prop where
  synced : ∀ a s', Driver.step a s = .ok ((), s') → s'.proc p = .out →
    (s'.buf b).Synced want s'.device
  prompt : (s.buf b).done = true → Driver.step (.acquire p) s = .ok ((), s.setProc p .out)

/-- A process in `iderw` returns only when its request is served, and then with its next step. -/
theorem Driver.Inv.returns {p : P} {b : Fin NBUF} {want : Option Block} (h : s.Inv q)
    (hp : (s.proc p).In b want) : s.Returns p b want := by
  have hplaced := h.placed p
  constructor
  · intro a s' hs' hout
    have ha : a = .acquire p := by
      by_contra hne
      have hbuf : (s'.proc p).buf? = some b := by
        by_cases hgood : a.NoError
        · exact ((h.step hgood).of_ok hs').2 p b hne hp.buf?_eq
        · cases a with
          | complete status junk =>
            -- the device does not touch the processes, whatever it reports
            have hproc : Sat (fun _ => True) (Driver.step (.complete status junk)) s
                fun _ s' => s'.proc = s.proc := by
              rw [Driver.step, sat_get_bind]
              cases s.device.command with
              | none => trivial
              | some c => rfl
            rw [hproc.of_ok hs']
            exact hp.buf?_eq
          | _ => exact absurd trivial hgood
      rw [hout] at hbuf
      cases hbuf
    subst ha
    change locked p (s.proc p) s = _ at hs'
    rcases hp with hp | hp | hp
    · rw [hp] at hs'
      rw [((h.step_append hp).of_ok hs').2, update_self] at hout
      cases hout
    · rw [hp] at hs'
      cases hs'
    · rw [hp] at hs' hplaced
      cases hs'
      have hdone : (s.buf b).done = true := by
        by_contra hne
        have hasleep : (s.setProc p (if (s.buf b).done then .out else .asleep b want)).proc p =
            .asleep b want := by
          rw [if_neg hne]
          exact update_self ..
        rw [hasleep] at hout
        cases hout
      rcases hplaced with hplaced | hplaced
      · rw [hplaced.2.1] at hdone
        cases hdone
      · exact hplaced.2.2
  · intro hdone
    rcases hp with hp | hp | hp
    · rw [hp] at hplaced
      rw [hplaced.2.1] at hdone
      cases hdone
    · rw [hp] at hplaced
      rw [hplaced.2.1] at hdone
      cases hdone
    · have hstep : Driver.step (.acquire p) s = iderwLoop p b want s := by
        change locked p (s.proc p) s = _
        rw [hp]
        rfl
      rw [hstep]
      exact congrArg (fun pc => Except.ok ((), s.setProc p pc)) (if_pos hdone)

/-- In every run without device errors, whatever the processes and the interrupts do, the requests
are started and finished in the order of their arrival, each once; only the first of the queue is
active in the device; `iderw` returns exactly when its buffer is `B_VALID`, not `B_DIRTY` and equal to
its block on the disk; and the driver never waits for ever with the lock. -/
theorem iderw_queue (disk : Bool → Nat → Block) (havedisk1 : Bool) {as : List (Act P)}
    (has : ∀ a ∈ as, a.NoError) (hrun : Driver.run as (.start disk havedisk1) = .ok ((), s)) :
    ∃ q, s.InOrder q ∧ (∀ p b want, (s.proc p).In b want → s.Returns p b want) ∧
      ∀ a : Act P, a.NoError → Driver.step a s ≠ .error .diverge := by
  obtain ⟨q, hq⟩ := Driver.inv_of_run has hrun
  refine ⟨q, hq.inOrder, fun p b want hp => hq.returns hp, fun a ha hspin => ?_⟩
  exact (hq.step ha).of_error hspin rfl

end

/-- Two processes, of which one reads block 5 and the other writes block 6. The first command is
done. -/
def twoRequests : List (Act (Fin 2)) :=
  let b₀ : Fin NBUF := ⟨0, NBUF_pos⟩
  let b₁ : Fin NBUF := ⟨1, one_lt_NBUF⟩
  [.bget 0 b₀ 1 5, .bget 1 b₁ 1 6, .edit 1 b₁ .zero true, .iderw 0 b₀, .iderw 1 b₁, .acquire 0,
    .acquire 1, .wake 1, .complete 0x40 .zero, .ideintr]

theorem iderw_queue_twoRequests :
    ∃ s, Driver.run twoRequests (.start (fun _ _ => .zero) true) = .ok ((), s) ∧
      s.finished.length = 1 ∧ ∃ q, s.InOrder q ∧
        (∀ p b want, (s.proc p).In b want → s.Returns p b want) ∧
        ∀ a, a.NoError → Driver.step a s ≠ .error .diverge := by
  have has : ∀ a ∈ twoRequests, a.NoError := by decide
  have hrun : ∃ a s, Driver.run twoRequests (.start (fun _ _ => .zero) true) = .ok (a, s) ∧
      s.finished.length = 1 := Sat.returns (by decide +kernel)
  obtain ⟨_, s, hs, hlen⟩ := hrun
  exact ⟨s, hs, hlen, iderw_queue _ _ has hs⟩

end TronBoss.Ide
