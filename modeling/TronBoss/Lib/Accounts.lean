import TronBoss.Lib.Hoare

/-!
# Routines that keep accounts

What a routine holds, such as the locks it has taken, often does not depend on the values it works
with. An account is a family `I : ι → σ → Prop` of predicates on states, where the index says what is
held. `Moves I E i m f` says that `m`, from every state with the account `i`, returns some `a` with
the account `f a`, or stops for a reason in `E`. The rules follow the text of a routine, and the
state does not occur in them.
-/

namespace Lib

section
variable {σ ι α β : Type} {I : ι → σ → Prop} {E : Stop → Prop} {i : ι} {m : Routine σ α}
  {k : α → Routine σ β} {f : α → ι} {g : β → ι}

/-- From the account `i`, the routine gets to the account that `f` has for its result. -/
def Moves (I : ι → σ → Prop) (E : Stop → Prop) (i : ι) (m : Routine σ α) (f : α → ι) : Prop :=
  ∀ s, I i s → Sat E m s fun a s' => I (f a) s'

theorem Moves.pure {a : α} : Moves I E i (pure a) fun _ => i := fun _ h => h

/-- A result that the account depends on. -/
theorem Moves.result {a : α} (h : i = f a) : Moves I E i (Pure.pure a) f := by
  subst h
  exact fun _ hs => hs

theorem Moves.throw {e : Stop} (he : E e) : Moves I E i (throw e) f := fun _ _ => he

theorem Moves.bind (hm : Moves I E i m f) (hk : ∀ a, Moves I E (f a) (k a) g) :
    Moves I E i (m >>= k) g := fun s hs => (hm s hs).bind hk

/-- What the routine reads of the state does not matter. -/
theorem Moves.get_bind {k : σ → Routine σ β} (hk : ∀ s, Moves I E i (k s) g) :
    Moves I E i (get >>= k) g := fun s hs => hk s s hs

theorem Moves.modify {u : σ → σ} {j : ι} (h : ∀ s, I i s → I j (u s)) :
    Moves I E i (modify u) fun _ => j := h

theorem Moves.panicIf {c : Prop} [Decidable c] {msg : String} (he : E (.panic msg)) :
    Moves I E i (panicIf c msg : Routine σ Unit) fun _ => i := fun _ hs =>
  sat_panicIf.2 ⟨fun _ => he, fun _ => hs⟩

theorem Moves.panicIf_bind {c : Prop} [Decidable c] {msg : String} {k : Unit → Routine σ β}
    (he : E (.panic msg)) (hk : Moves I E i (k ()) g) :
    Moves I E i ((Lib.panicIf c msg : Routine σ Unit) >>= k) g :=
  (Moves.panicIf he).bind fun _ => hk

theorem Moves.ite {c : Prop} [Decidable c] {m1 m2 : Routine σ α} (h1 : Moves I E i m1 f)
    (h2 : Moves I E i m2 f) : Moves I E i (if c then m1 else m2) f := fun s hs =>
  .ite (fun _ => h1 s hs) fun _ => h2 s hs

/-- A loop keeps the account that each of its turns keeps. -/
theorem Moves.forM {γ : Type} {g : γ → Routine σ PUnit} {l : List γ}
    (h : ∀ x, Moves I E i (g x) fun _ => i) : Moves I E i (l.forM g) fun _ => i := fun _ hs =>
  Sat.run (I := I i) h hs

end

end Lib
