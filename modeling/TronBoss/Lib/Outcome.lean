import Mathlib.Logic.Function.Basic

/-!
# Computations that may stop

A kernel routine either returns or stops the machine: it calls `panic`, it reads outside an array,
or one of its loops does not end. `Stop` names these ends, and a routine is an `Except Stop`
computation. The lemmas compute such a computation once the result of its first part is known.
-/

namespace Lib

/-- Why a routine does not return. -/
inductive Stop where
  /-- `panic(msg)` was called. -/
  | panic (msg : String)
  /-- An array was indexed out of its bounds. -/
  | outOfBounds
  /-- A loop did not end within the turns the data structure allows. -/
  | diverge
  /-- The step is not one the caller can take in this state. -/
  | disabled
  deriving DecidableEq, Repr

universe u

variable {ε : Type*} {α β : Type u} {x : Except ε α} {c : Prop} {msg : String}

@[simp] theorem ok_bind (a : α) (f : α → Except ε β) : (Except.ok a >>= f) = f a := rfl

@[simp] theorem error_bind (e : ε) (f : α → Except ε β) :
    ((Except.error e : Except ε α) >>= f) = Except.error e := rfl

@[simp] theorem pure_eq_ok (a : α) : (pure a : Except ε α) = Except.ok a := rfl

/-- A computation returns when its first part returns and the rest then returns. -/
theorem bind_eq_ok {f : α → Except ε β} {b : β} :
    (x >>= f) = .ok b ↔ ∃ a, x = .ok a ∧ f a = .ok b := by
  cases x with
  | error e | ok a => simp

/-- A computation stops when its first part stops, or when that returns and the rest stops. -/
theorem bind_eq_error {f : α → Except ε β} {e : ε} :
    (x >>= f) = .error e ↔ x = .error e ∨ ∃ a, x = .ok a ∧ f a = .error e := by
  cases x with
  | error e | ok a => simp

/-- `if (c) panic(msg);` -/
def panicIf (c : Prop) [Decidable c] (msg : String) : Except Stop Unit :=
  if c then .error (.panic msg) else .ok ()

@[simp] theorem panicIf_pos [Decidable c] (h : c) : panicIf c msg = .error (.panic msg) := if_pos h

@[simp] theorem panicIf_neg [Decidable c] (h : ¬ c) : panicIf c msg = .ok () := if_neg h

/-- A `panicIf` that returns did not see its condition. -/
@[simp] theorem panicIf_eq_ok [Decidable c] {u : Unit} : panicIf c msg = .ok u ↔ ¬ c := by
  unfold panicIf
  split <;> simp_all

theorem panicIf_bind_eq_ok [Decidable c] {α : Type} {f : Unit → Except Stop α}
    {b : α} (h : (panicIf c msg >>= f) = .ok b) : ¬ c ∧ f () = .ok b := by
  obtain ⟨u, hc, hf⟩ := bind_eq_ok.1 h
  exact ⟨panicIf_eq_ok.1 hc, hf⟩

/-- A guard on the state in which a step may be taken. -/
def require (c : Prop) [Decidable c] : Except Stop Unit :=
  if c then .ok () else .error .disabled

@[simp] theorem require_pos [Decidable c] (h : c) : require c = .ok () := if_pos h

@[simp] theorem require_eq_ok [Decidable c] {u : Unit} : require c = .ok u ↔ c := by
  unfold require
  split <;> simp_all

theorem require_bind_eq_ok [Decidable c] {α : Type} {f : Unit → Except Stop α} {b : α}
    (h : (require c >>= f) = .ok b) : c ∧ f () = .ok b := by
  obtain ⟨u, hc, hf⟩ := bind_eq_ok.1 h
  exact ⟨require_eq_ok.1 hc, hf⟩

/-- The result of a bounded loop, which stops the machine when the bound was too small. -/
def terminating : Option α → Except Stop α
  | some a => .ok a
  | none => .error .diverge

@[simp] theorem terminating_some (a : α) : terminating (some a) = .ok a := rfl

/-- Why a computation stopped, if it did. -/
def stop? : Except Stop α → Option Stop
  | .error e => some e
  | .ok _ => none

theorem stop?_eq_some {x : Except Stop α} {e : Stop} (h : stop? x = some e) : x = .error e := by
  cases x with
  | error e' =>
    cases h
    rfl
  | ok a => cases h

/-- A computation that was evaluated, with what its result passed. -/
theorem exists_ok {f : α → Bool} (h : x.toOption.any f = true) : ∃ a, x = .ok a ∧ f a = true := by
  cases x with
  | error e => cases h
  | ok a => exact ⟨a, rfl, h⟩

/-- What every step of a run keeps is kept by the run. -/
theorem foldlM_keeps {σ : Type} {f : σ → α → Except ε σ} {P : σ → Prop} :
    ∀ {as : List α} {s s' : σ}, (∀ {s a s'}, a ∈ as → P s → f s a = .ok s' → P s') → P s →
      as.foldlM f s = .ok s' → P s'
  | [], _, _, _, h, hr => by
    cases hr
    exact h
  | a :: as, s, s', hf, h, hr => by
    rw [List.foldlM_cons] at hr
    obtain ⟨s1, h1, h2⟩ := bind_eq_ok.1 hr
    exact foldlM_keeps (fun ha => hf (List.mem_cons_of_mem a ha)) (hf List.mem_cons_self h h1) h2

end Lib
