import TronBoss.Lib.Outcome

/-!
# Postconditions of stateful routines

A kernel routine that works on a state `σ` is a `Routine σ`: it returns a value and a new state, or
it stops. `Sat E m s Q` says that from the state `s` the routine `m` either returns with `Q`, or
stops for one of the reasons in `E`. With `E` empty this is total correctness, with `E` everything
it is partial correctness; a specification names the reasons in between that it puts up with. The
rules follow the way routines are put together.
-/

namespace Lib

/-- A routine over the state `σ`. -/
abbrev Routine (σ : Type) : Type → Type := StateT σ (Except Stop)

section
variable {σ α β : Type} {E E' : Stop → Prop} {m : Routine σ α} {f : α → Routine σ β} {s s' : σ}
  {Q Q' : α → σ → Prop} {c : Prop} {a : α}

/-- From `s`, the routine returns with `Q` or stops for a reason in `E`. -/
def Sat (E : Stop → Prop) (m : Routine σ α) (s : σ) (Q : α → σ → Prop) : Prop :=
  match m s with
  | .ok (a, s') => Q a s'
  | .error e => E e

instance [DecidablePred E] {Q : α → σ → Prop} [∀ a s, Decidable (Q a s)] :
    Decidable (Sat E m s Q) :=
  match h : m s with
  | .ok (a, s') => decidable_of_iff (Q a s') (by rw [Sat, h])
  | .error e => decidable_of_iff (E e) (by rw [Sat, h])

/-! ## Reading a specification -/

theorem Sat.of_ok (h : Sat E m s Q) (hm : m s = .ok (a, s')) : Q a s' := by
  rw [Sat, hm] at h
  exact h

theorem Sat.of_error {e : Stop} (h : Sat E m s Q) (hm : m s = .error e) : E e := by
  rw [Sat, hm] at h
  exact h

/-- It is enough to look at the run that returns when every reason to stop is allowed. -/
theorem Sat.of_returns (h : ∀ a s', m s = .ok (a, s') → Q a s') : Sat (fun _ => True) m s Q := by
  rw [Sat]
  split
  · exact h _ _ ‹_›
  · trivial

/-- A specification of a run that is known to return. -/
theorem sat_of_eq_ok (hm : m s = .ok (a, s')) : Sat E m s Q ↔ Q a s' := by
  rw [Sat, hm]

/-- A routine that cannot stop returns. -/
theorem Sat.returns (h : Sat (fun _ => False) m s Q) : ∃ a s', m s = .ok (a, s') ∧ Q a s' := by
  rw [Sat] at h
  split at h
  · exact ⟨_, _, ‹_›, h⟩
  · exact h.elim

/-- A run, from a specification that says all about it. -/
theorem eq_ok_of_sat (h : Sat (fun _ => False) m s fun b t => b = a ∧ t = s') :
    m s = .ok (a, s') := by
  obtain ⟨b, t, hm, rfl, rfl⟩ := h.returns
  exact hm

/-! ## Rules -/

/-- The consequence rule. -/
theorem Sat.mono (h : Sat E m s Q) (hE : ∀ e, E e → E' e)
    (hQ : ∀ a s', Q a s' → Q' a s') : Sat E' m s Q' := by
  rw [Sat] at h ⊢
  split at h
  · exact hQ _ _ h
  · exact hE _ h

theorem Sat.weaken (h : Sat E m s Q) (hQ : ∀ a s', Q a s' → Q' a s') : Sat E m s Q' :=
  h.mono (fun _ he => he) hQ

/-- A routine that cannot stop. -/
theorem Sat.never (h : Sat (fun _ => False) m s Q) : Sat E m s Q :=
  h.mono (fun _ he => he.elim) fun _ _ hQ => hQ

/-- Two specifications of one routine hold together. -/
theorem Sat.and (h : Sat E m s Q) (h' : Sat E' m s Q') :
    Sat E m s fun a s' => Q a s' ∧ Q' a s' := by
  rw [Sat] at h h' ⊢
  split at h
  · rename_i hm
    rw [hm] at h'
    exact ⟨h, h'⟩
  · exact h

@[simp] theorem sat_pure : Sat E (pure a : Routine σ α) s Q ↔ Q a s := Iff.rfl

@[simp] theorem sat_throw {e : Stop} : Sat E (throw e : Routine σ α) s Q ↔ E e := Iff.rfl

theorem sat_bind {Q : β → σ → Prop} :
    Sat E (m >>= f) s Q ↔ Sat E m s fun a s' => Sat E (f a) s' Q := by
  have hb : (m >>= f) s = (m s >>= fun p => f p.1 p.2) := rfl
  rw [Sat, Sat, hb]
  cases m s <;> rfl

/-- The rule of sequencing: the rest is proved from what the first part establishes. -/
theorem Sat.bind {P : α → σ → Prop} {Q : β → σ → Prop} (hm : Sat E m s P)
    (hf : ∀ a s', P a s' → Sat E (f a) s' Q) : Sat E (m >>= f) s Q :=
  sat_bind.2 (hm.weaken hf)

@[simp] theorem sat_pure_bind {Q : β → σ → Prop} :
    Sat E (pure a >>= f) s Q ↔ Sat E (f a) s Q := Iff.rfl

@[simp] theorem sat_get_bind {f : σ → Routine σ β} {Q : β → σ → Prop} :
    Sat E (get >>= f) s Q ↔ Sat E (f s) s Q := Iff.rfl

@[simp] theorem sat_modify {g : σ → σ} {Q : Unit → σ → Prop} :
    Sat E (modify g : Routine σ Unit) s Q ↔ Q () (g s) := Iff.rfl

@[simp] theorem sat_modify_bind {g : σ → σ} {f : Unit → Routine σ β} {Q : β → σ → Prop} :
    Sat E ((modify g : Routine σ Unit) >>= f) s Q ↔ Sat E (f ()) (g s) Q := Iff.rfl

theorem sat_discard {Q : Unit → σ → Prop} :
    Sat E (discard m) s Q ↔ Sat E m s fun _ s' => Q () s' := by
  have hd : discard m = m >>= fun _ => pure () := rfl
  rw [hd, sat_bind]
  rfl

/-- A `panicIf` asks for its reason to be allowed where the condition holds. -/
theorem sat_panicIf_bind [Decidable c] {msg : String} {f : Unit → Routine σ β} {Q : β → σ → Prop} :
    Sat E ((panicIf c msg : Routine σ Unit) >>= f) s Q ↔
      (c → E (.panic msg)) ∧ (¬ c → Sat E (f ()) s Q) := by
  have hc : ((panicIf c msg : Routine σ Unit) >>= f) =
      if c then throw (.panic msg) else f () := by
    unfold panicIf
    split <;> rfl
  rw [hc]
  split <;> simp [*]

theorem sat_panicIf [Decidable c] {msg : String} {Q : Unit → σ → Prop} :
    Sat E (panicIf c msg : Routine σ Unit) s Q ↔ (c → E (.panic msg)) ∧ (¬ c → Q () s) := by
  rw [← bind_pure (panicIf c msg : Routine σ Unit), sat_panicIf_bind]
  rfl

/-- A guard asks for `disabled` to be allowed where it does not hold. -/
theorem sat_require_bind [Decidable c] {f : Unit → Routine σ β} {Q : β → σ → Prop} :
    Sat E ((require c : Routine σ Unit) >>= f) s Q ↔
      (¬ c → E .disabled) ∧ (c → Sat E (f ()) s Q) := by
  have hc : ((require c : Routine σ Unit) >>= f) = if c then f () else throw .disabled := by
    unfold require
    split <;> rfl
  rw [hc]
  split <;> simp [*]

/-- The rule of a conditional. -/
theorem Sat.ite [Decidable c] {m1 m2 : Routine σ α}
    (h1 : c → Sat E m1 s Q) (h2 : ¬ c → Sat E m2 s Q) :
    Sat E (if c then m1 else m2) s Q := by
  split
  · exact h1 ‹_›
  · exact h2 ‹_›

/-- The rule of a loop over a list, with an invariant that knows the part already done. -/
theorem Sat.forM {γ : Type} {g : γ → Routine σ PUnit} {I : List γ → σ → Prop} {l : List γ}
    (hstep : ∀ pre x post s, l = pre ++ x :: post → I pre s →
      Sat E (g x) s fun _ s' => I (pre ++ [x]) s')
    (hinit : I [] s) : Sat E (l.forM g) s fun _ s' => I l s' := by
  suffices h : ∀ post pre s, l = pre ++ post → I pre s → Sat E (post.forM g) s fun _ s' => I l s' by
    exact h l [] s rfl hinit
  intro post
  induction post with
  | nil =>
    intro pre s hl hI
    rw [List.append_nil] at hl
    exact hl ▸ hI
  | cons x post ih =>
    intro pre s hl hI
    exact (hstep pre x post s hl hI).bind fun _ s' hI' => ih (pre ++ [x]) s' (by simp [hl]) hI'

/-- The rule of a run: what every step keeps holds at the end. -/
theorem Sat.run {γ : Type} {g : γ → Routine σ PUnit} {I : σ → Prop} {l : List γ}
    (hstep : ∀ x s, I s → Sat E (g x) s fun _ s' => I s') (hinit : I s) :
    Sat E (l.forM g) s fun _ s' => I s' :=
  Sat.forM (I := fun _ => I) (fun _ x _ s _ => hstep x s) hinit

end

/-! ## Routines over a part of the state -/

section
variable {σ τ α : Type}

/-- A routine over one component of a larger state. -/
def zoom (get : τ → σ) (set : τ → σ → τ) (m : Routine σ α) : Routine τ α := fun t =>
  match m (get t) with
  | .ok (a, s') => .ok (a, set t s')
  | .error e => .error e

@[simp] theorem sat_zoom {E : Stop → Prop} {get : τ → σ} {set : τ → σ → τ} {m : Routine σ α}
    {t : τ} {Q : α → τ → Prop} :
    Sat E (zoom get set m) t Q ↔ Sat E m (get t) fun a s' => Q a (set t s') := by
  rw [Sat, Sat, zoom]
  cases m (get t) <;> rfl

end

end Lib
