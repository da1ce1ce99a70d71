import Mathlib.Data.Fintype.Basic
import TronBoss.Lib.Outcome

/-!
# Programs of lock operations and their order

What programs do to spin locks, on several processors that share a set of threads. A command is built
from `acquire` and `release` with sequence, choice and iteration; `sched` gives the processor back to
its scheduler and `dispatch` takes a thread up, both under one lock, the table lock, that the two
hand over to each other. `Cmd.flow` checks a command against an order of the locks: it computes the
locks that are held after the command and fails where a lock is acquired under one that does not
come before it. A machine whose programs pass the check never has two processors that wait for each
other (`Machine.Ordered.not_crossed`).
-/

namespace Lib

open Function

/-- Commands over the locks `L`. -/
inductive Cmd (L : Type) where
  | skip
  | acquire (l : L)
  | release (l : L)
  | sched
  | dispatch
  | seq (x y : Cmd L)
  | choice (x y : Cmd L)
  | star (x : Cmd L)
  deriving DecidableEq, Repr

/-- Commands one after the other. -/
def Cmd.seqs {L : Type} : List (Cmd L) → Cmd L
  | [] => .skip
  | x :: xs => .seq x (seqs xs)

/-- One of several commands. -/
def Cmd.choices {L : Type} : List (Cmd L) → Cmd L
  | [] => .skip
  | [x] => x
  | x :: xs => .choice x (choices xs)

/-- A processor: the commands it has still to do and, when it runs a thread, the thread and what its
scheduler has still to do. -/
structure Core (L : Type) where
  cur : List (Cmd L)
  saved : Option (Nat × List (Cmd L))

/-- The processors `C`, the holders of the locks, and the threads that wait to be dispatched. -/
structure Machine (L C : Type) where
  holder : L → Option C
  core : C → Core L
  pool : Nat → Option (List (Cmd L))

/-- The steps of a processor: its next command, where `left` says which way a choice or an iteration
goes; the dispatch of a thread; an interrupt, whose handler runs before anything else. -/
inductive LockAct (L C : Type) where
  | go (c : C) (left : Bool)
  | dispatch (c : C) (p : Nat)
  | interrupt (c : C) (x : Cmd L)
  /-- An interrupt that is taken only while the processor runs a thread. -/
  | preempt (c : C) (x : Cmd L)

section
variable {L C : Type} [DecidableEq L] [DecidableEq C] {k : List (Cmd L)}

def Machine.setCur (m : Machine L C) (c : C) (k : List (Cmd L)) : Machine L C :=
  { m with core := update m.core c { m.core c with cur := k } }

def Machine.setHolder (m : Machine L C) (l : L) (x : Option C) : Machine L C :=
  { m with holder := update m.holder l x }

/-- The next command of a processor. -/
def Machine.go (table : L) (m : Machine L C) (c : C) (left : Bool) : Except Stop (Machine L C) :=
  match (m.core c).cur with
  | .skip :: k => .ok (m.setCur c k)
  | .seq x y :: k => .ok (m.setCur c (x :: y :: k))
  | .choice x y :: k => .ok (m.setCur c ((if left then x else y) :: k))
  | .star x :: k => .ok (m.setCur c (if left then x :: .star x :: k else k))
  | .acquire l :: k => do
    panicIf (m.holder l = some c) "acquire"
    require (m.holder l = none)
    return (m.setHolder l (some c)).setCur c k
  | .release l :: k => do
    panicIf (m.holder l ≠ some c) "release"
    return (m.setHolder l none).setCur c k
  | .sched :: k => do
    panicIf (m.holder table ≠ some c) "sched"
    match (m.core c).saved with
    | some (p, s) =>
      return { m with
        core := update m.core c ⟨s, none⟩
        pool := update m.pool p (some k) }
    | none => .error .disabled
  | _ => .error .disabled

/-- One step. An interrupt comes only while its processor holds no lock. -/
def Machine.step [Fintype L] (table : L) (m : Machine L C) :
    LockAct L C → Except Stop (Machine L C)
  | .go c left => m.go table c left
  | .dispatch c p =>
    match (m.core c).cur, (m.core c).saved, m.pool p with
    | .dispatch :: s, none, some k =>
      .ok { m with
        core := update m.core c ⟨k, some (p, s)⟩
        pool := update m.pool p none }
    | _, _, _ => .error .disabled
  | .interrupt c x => do
    require (∀ l, m.holder l ≠ some c)
    return m.setCur c (x :: (m.core c).cur)
  | .preempt c x => do
    require ((∀ l, m.holder l ≠ some c) ∧ (m.core c).saved.isSome)
    return m.setCur c (x :: (m.core c).cur)

/-- The processor has come to an `acquire` of the lock. -/
def Machine.Waits (m : Machine L C) (c : C) (l : L) : Prop :=
  (m.core c).cur.head? = some (.acquire l)

instance (m : Machine L C) (c : C) (l : L) : Decidable (m.Waits c l) :=
  inferInstanceAs (Decidable (_ = _))

/-! ## The order of the locks -/

section
variable (rank : L → Nat) (table : L)

/-- The locks that are held after a command, if it acquires locks in the order of their ranks and
switches with the table lock only. -/
def Cmd.flow : Cmd L → Finset L → Option (Finset L)
  | .skip, H => some H
  | .acquire l, H => if ∀ l' ∈ H, rank l' < rank l then some (insert l H) else none
  | .release l, H => if l ∈ H then some (H.erase l) else none
  | .sched, H | .dispatch, H => if H = {table} then some H else none
  | .seq x y, H => (x.flow H).bind y.flow
  | .choice x y, H => if x.flow H = y.flow H then x.flow H else none
  | .star x, H => if x.flow H = some H then some H else none

/-- The locks that are held after a list of commands. -/
def flowAll : List (Cmd L) → Finset L → Option (Finset L)
  | [], H => some H
  | x :: k, H => (x.flow rank table H).bind (flowAll k)

/-- The commands respect the order from the locks `H` on. -/
def Respects (k : List (Cmd L)) (H : Finset L) : Prop := (flowAll rank table k H).isSome

instance (k : List (Cmd L)) (H : Finset L) : Decidable (Respects rank table k H) :=
  inferInstanceAs (Decidable (_ = _))

end

/-- The locks of a processor. -/
def Machine.held [Fintype L] (m : Machine L C) (c : C) : Finset L :=
  Finset.univ.filter fun l => m.holder l = some c

/-- Every program of the machine respects the order. -/
structure Machine.Ordered [Fintype L] (rank : L → Nat) (table : L) (m : Machine L C) : Prop where
  cur : ∀ c, Respects rank table (m.core c).cur (m.held c)
  saved : ∀ c p s, (m.core c).saved = some (p, s) → Respects rank table s {table}
  pool : ∀ p k, m.pool p = some k → Respects rank table k {table}

section
variable {rank : L → Nat} {table : L}

theorem respects_cons {x : Cmd L} {H : Finset L} :
    Respects rank table (x :: k) H ↔ ∃ H', x.flow rank table H = some H' ∧
      Respects rank table k H' := by
  unfold Respects
  rw [flowAll]
  cases hx : x.flow rank table H with
  | none | some H' => simp

theorem Cmd.flow_seqs (k : List (Cmd L)) (H : Finset L) :
    (Cmd.seqs k).flow rank table H = flowAll rank table k H := by
  induction k generalizing H with
  | nil => rfl
  | cons x k ih =>
    rw [seqs, flow, flowAll]
    exact congrArg _ (funext ih)

/-- Commands that each leave the locks as they are. -/
theorem flowAll_eq_self {H : Finset L}
    (h : ∀ x ∈ k, x.flow rank table H = some H) : flowAll rank table k H = some H := by
  induction k with
  | nil => rfl
  | cons x k ih =>
    rw [flowAll, h x List.mem_cons_self]
    exact ih fun y hy => h y (List.mem_cons_of_mem x hy)

variable [Fintype L] {m m' : Machine L C} {c : C}

omit [DecidableEq L] in
@[simp] theorem Machine.mem_held {l : L} : l ∈ m.held c ↔ m.holder l = some c := by
  simp [held]

omit [DecidableEq L] in
theorem Machine.held_congr (h : m'.holder = m.holder) (d : C) : m'.held d = m.held d := by
  rw [held, held, h]

/-- A step of one processor that leaves the locks of the others alone. -/
theorem Machine.Ordered.update {x : Core L} (h : m.Ordered rank table)
    (hcore : m'.core = update m.core c x) (hheld : ∀ d, d ≠ c → m'.held d = m.held d)
    (hcur : Respects rank table x.cur (m'.held c))
    (hsaved : ∀ p s, x.saved = some (p, s) → Respects rank table s {table})
    (hpool : ∀ p k, m'.pool p = some k → Respects rank table k {table}) :
    m'.Ordered rank table := by
  refine ⟨fun d => ?_, fun d => ?_, hpool⟩
  · rw [hcore]
    rcases eq_or_ne d c with rfl | hne
    · rwa [update_self]
    · rw [update_of_ne hne, hheld d hne]
      exact h.cur d
  · rw [hcore]
    rcases eq_or_ne d c with rfl | hne
    · rwa [update_self]
    · rw [update_of_ne hne]
      exact h.saved d

theorem Machine.Ordered.setCur (h : m.Ordered rank table)
    (hk : Respects rank table k (m.held c)) : (m.setCur c k).Ordered rank table :=
  h.update rfl (fun _ _ => held_congr rfl _) hk (h.saved c) h.pool

theorem Machine.held_setHolder_of_ne {l : L} {x : Option C} (hl : ∀ d, m.holder l = some d → d = c)
    (hx : ∀ d, x = some d → d = c) {d : C} (hd : d ≠ c) : (m.setHolder l x).held d = m.held d := by
  ext l'
  rcases eq_or_ne l' l with rfl | hne
  · simp only [mem_held, setHolder, update_self]
    exact ⟨fun e => absurd (hx d e) hd, fun e => absurd (hl d e) hd⟩
  · simp [setHolder, hne]

section
variable (h : m.Ordered rank table)
include h

/-- The next command of a processor keeps the order. -/
theorem Machine.Ordered.go {left : Bool} (hs : m.go table c left = .ok m') : m'.Ordered rank table := by
  unfold Machine.go at hs
  split at hs
  · next k hk =>
    cases hs
    obtain ⟨_, ⟨⟩, hc⟩ := respects_cons.1 (hk ▸ h.cur c)
    exact h.setCur hc
  · next x y k hk =>
    cases hs
    obtain ⟨H, hx, hc⟩ := respects_cons.1 (hk ▸ h.cur c)
    obtain ⟨H1, h1, h2⟩ := Option.bind_eq_some_iff.1 hx
    exact h.setCur (respects_cons.2 ⟨H1, h1, respects_cons.2 ⟨H, h2, hc⟩⟩)
  · next x y k hk =>
    cases hs
    obtain ⟨H, hx, hc⟩ := respects_cons.1 (hk ▸ h.cur c)
    obtain ⟨hxy, hx⟩ := Option.ite_none_right_eq_some.1 hx
    refine h.setCur (respects_cons.2 ⟨H, ?_, hc⟩)
    cases left with
    | true => exact hx
    | false => exact hxy.symm.trans hx
  · next x k hk =>
    cases hs
    obtain ⟨H, hx, hc⟩ := respects_cons.1 (hk ▸ h.cur c)
    obtain ⟨hfix, ⟨⟩⟩ := Option.ite_none_right_eq_some.1 hx
    refine h.setCur ?_
    cases left with
    | true =>
      refine respects_cons.2 ⟨_, hfix, respects_cons.2 ⟨_, ?_, hc⟩⟩
      rw [Cmd.flow, if_pos hfix]
    | false => exact hc
  · next l k hk =>
    obtain ⟨-, hs⟩ := panicIf_bind_eq_ok hs
    obtain ⟨hfree, hs⟩ := require_bind_eq_ok hs
    cases hs
    obtain ⟨H, hx, hc⟩ := respects_cons.1 (hk ▸ h.cur c)
    obtain ⟨-, ⟨⟩⟩ := Option.ite_none_right_eq_some.1 hx
    refine h.update rfl (fun d hd => ?_) ?_ (h.saved c) h.pool
    · exact held_setHolder_of_ne (by simp [hfree]) (by simp) hd
    · convert hc using 1
      ext l'
      rcases eq_or_ne l' l with rfl | hne <;> simp [Machine.setCur, setHolder, *]
  · next l k hk =>
    obtain ⟨hheld, hs⟩ := panicIf_bind_eq_ok hs
    cases hs
    obtain ⟨H, hx, hc⟩ := respects_cons.1 (hk ▸ h.cur c)
    obtain ⟨-, ⟨⟩⟩ := Option.ite_none_right_eq_some.1 hx
    refine h.update rfl (fun d hd => ?_) ?_ (h.saved c) h.pool
    · exact held_setHolder_of_ne (by simp [not_not.1 hheld]) (by simp) hd
    · convert hc using 1
      ext l'
      rcases eq_or_ne l' l with rfl | hne <;> simp [Machine.setCur, setHolder, *]
  · next k hk =>
    obtain ⟨-, hs⟩ := panicIf_bind_eq_ok hs
    split at hs
    · next p s hsaved =>
      cases hs
      obtain ⟨H, hx, hc⟩ := respects_cons.1 (hk ▸ h.cur c)
      obtain ⟨heq, ⟨⟩⟩ := Option.ite_none_right_eq_some.1 hx
      refine h.update rfl (fun d _ => held_congr rfl d) ?_ nofun fun q k' hq => ?_
      · change Respects rank table s (m.held c)
        rw [heq]
        exact h.saved c p s hsaved
      · rcases eq_or_ne q p with rfl | hne
        · cases (update_self q (some k) m.pool).symm.trans hq
          rwa [heq] at hc
        · exact h.pool q k' ((update_of_ne hne ..).symm.trans hq)
    · cases hs
  · cases hs

/-- A handler that takes its locks in order and gives them back may interrupt. -/
theorem Machine.Ordered.handler {x : Cmd L} (hx : x.flow rank table ∅ = some ∅)
    (hc : ∀ l, m.holder l ≠ some c) :
    (m.setCur c (x :: (m.core c).cur)).Ordered rank table := by
  have hheld : m.held c = ∅ := by
    ext l
    simp [hc l]
  refine h.setCur (respects_cons.2 ⟨∅, by rwa [hheld], ?_⟩)
  rw [← hheld]
  exact h.cur c

/-- A step keeps the order, if the handler of an interrupt is in order. -/
theorem Machine.Ordered.step {a : LockAct L C}
    (ha : ∀ c x, a = .interrupt c x ∨ a = .preempt c x → x.flow rank table ∅ = some ∅)
    (hs : m.step table a = .ok m') : m'.Ordered rank table := by
  cases a with
  | go c left => exact h.go hs
  | dispatch c p =>
    unfold Machine.step at hs
    dsimp only at hs
    split at hs
    · next s k hcur _ hp =>
      cases hs
      have hc := h.cur c
      rw [hcur, respects_cons] at hc
      obtain ⟨H, hx, hc⟩ := hc
      rw [Cmd.flow] at hx
      split at hx
      · next heq =>
        cases hx
        rw [heq] at hc
        refine h.update rfl (fun d _ => held_congr rfl d) ?_ ?_ fun q k' hq => ?_
        · change Respects rank table k (m.held c)
          rw [heq]
          exact h.pool p k hp
        · rintro _ _ ⟨⟩
          exact hc
        · rcases eq_or_ne q p with rfl | hne
          · cases (update_self q none m.pool).symm.trans hq
          · exact h.pool q k' ((update_of_ne hne ..).symm.trans hq)
      · cases hx
    · cases hs
  | interrupt c x =>
    obtain ⟨u, hc, hs⟩ := bind_eq_ok.1 hs
    rw [require_eq_ok] at hc
    cases hs
    exact h.handler (ha c x (.inl rfl)) hc
  | preempt c x =>
    obtain ⟨u, hc, hs⟩ := bind_eq_ok.1 hs
    rw [require_eq_ok] at hc
    cases hs
    exact h.handler (ha c x (.inr rfl)) hc.1

/-- What a processor waits for comes after all it holds. -/
theorem Machine.Ordered.rank_lt {l l' : L} (hl : m.holder l = some c)
    (hw : m.Waits c l') : rank l < rank l' := by
  have hc := h.cur c
  unfold Machine.Waits at hw
  cases hk : (m.core c).cur with
  | nil =>
    rw [hk] at hw
    cases hw
  | cons x k =>
    rw [hk] at hw hc
    cases hw
    obtain ⟨H, hx, -⟩ := respects_cons.1 hc
    rw [Cmd.flow] at hx
    split at hx
    · next hr => exact hr l (mem_held.2 hl)
    · cases hx

/-- No two processors wait for a lock of each other. -/
theorem Machine.Ordered.not_crossed {d : C} {l l' : L} (hc : m.holder l = some c ∧ m.Waits c l')
    (hd : m.holder l' = some d ∧ m.Waits d l) : False :=
  Nat.lt_asymm (h.rank_lt hc.1 hc.2) (h.rank_lt hd.1 hd.2)

end

end

end

end Lib
