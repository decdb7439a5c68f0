import Mathlib.Logic.Basic

/-! # Contracts of computations that stop early

    A computation over a state either ends with a value or stops with a reason, and
    the state is there in both cases.  A contract says what holds before it, after
    an end and after a stop.  The rules follow the shape of the program. -/

namespace Contracts

variable {ε σ α β : Type}

/-- Where `P` holds before `x`, `Q` holds after its end and `E` after its stop. -/
structure Contract (P : σ → Prop) (x : EStateM ε σ α) (Q : α → σ → Prop)
    (E : ε → σ → Prop) : Prop where
  run : ∀ s, P s →
    match x s with
    | .ok a t => Q a t
    | .error e t => E e t

variable {P P' : σ → Prop} {Q Q' : α → σ → Prop} {E : ε → σ → Prop}

theorem Contract.pure {a : α} (h : ∀ s, P s → Q a s) :
    Contract P (Pure.pure a : EStateM ε σ α) Q E :=
  ⟨fun s hs => h s hs⟩

theorem Contract.throw {e : ε} (h : ∀ s, P s → E e s) :
    Contract P (MonadExcept.throw e : EStateM ε σ α) Q E :=
  ⟨fun s hs => h s hs⟩

variable {x : EStateM ε σ α}

theorem Contract.bind {f : α → EStateM ε σ β} {R : α → σ → Prop} {Q : β → σ → Prop}
    (hx : Contract P x R E) (hf : ∀ a, Contract (R a) (f a) Q E) : Contract P (x >>= f) Q E := by
  refine ⟨fun s hs => ?_⟩
  have hxs := hx.run s hs
  show match EStateM.bind x f s with
    | .ok a t => Q a t
    | .error e t => E e t
  cases h : x s with
  | ok a t =>
    rw [h] at hxs
    simp only [EStateM.bind, h]
    exact (hf a).run t hxs
  | error e t =>
    rw [h] at hxs
    simp only [EStateM.bind, h]
    exact hxs

theorem Contract.get {f : σ → EStateM ε σ β} {Q : β → σ → Prop}
    (h : ∀ s, P s → Contract (fun t => t = s) (f s) Q E) :
    Contract P (MonadState.get >>= f) Q E :=
  ⟨fun s hs => (h s hs).run s rfl⟩

theorem Contract.set {u : σ} {f : PUnit → EStateM ε σ β} {Q : β → σ → Prop}
    (h : (∃ s, P s) → Contract (fun t => t = u) (f ⟨⟩) Q E) :
    Contract P (MonadStateOf.set u >>= f) Q E :=
  ⟨fun s hs => (h ⟨s, hs⟩).run u rfl⟩

theorem Contract.weaken (h : Contract P' x Q' E) (hP : ∀ s, P s → P' s)
    (hQ : ∀ a s, Q' a s → Q a s) : Contract P x Q E := by
  refine ⟨fun s hs => ?_⟩
  have hxs := h.run s (hP s hs)
  cases hx : x s with
  | ok a t =>
    rw [hx] at hxs
    exact hQ a t hxs
  | error e t =>
    rw [hx] at hxs
    exact hxs

theorem Contract.of_fact {p : Prop} (h : p → Contract P x Q E) :
    Contract (fun s => p ∧ P s) x Q E :=
  ⟨fun s hs => (h hs.1).run s hs.2⟩

theorem Contract.named {ι : Type} (f : σ → ι)
    (h : ∀ i, Contract (fun s => P s ∧ f s = i) x Q E) : Contract P x Q E :=
  ⟨fun s hs => (h (f s)).run s ⟨hs, rfl⟩⟩

/-! ## Computations without a state -/

/-- `Q` holds of the value of `x`, or `E` of the reason why it stopped. -/
structure Gives (x : Except ε α) (Q : α → Prop) (E : ε → Prop) : Prop where
  run : match x with
    | .ok a => Q a
    | .error e => E e

section Gives

variable {Q : α → Prop} {E : ε → Prop}

theorem Gives.pure {a : α} (h : Q a) : Gives (Pure.pure a : Except ε α) Q E := ⟨h⟩

theorem Gives.throw {e : ε} (h : E e) : Gives (MonadExcept.throw e : Except ε α) Q E := ⟨h⟩

variable {x : Except ε α}

theorem Gives.bind {f : α → Except ε β} {R : α → Prop} {Q : β → Prop} (hx : Gives x R E)
    (hf : ∀ a, R a → Gives (f a) Q E) : Gives (x >>= f) Q E := by
  cases x with
  | ok a => exact hf a hx.run
  | error e => exact ⟨hx.run⟩

theorem Gives.ite {c : Prop} [Decidable c] {y : Except ε α} (hx : c → Gives x Q E)
    (hy : ¬ c → Gives y Q E) : Gives (if c then x else y) Q E := by
  split
  · exact hx (by assumption)
  · exact hy (by assumption)

theorem Gives.of_ok (h : Gives x Q E) {a : α} (hx : x = .ok a) : Q a := by
  subst hx
  exact h.run

theorem Gives.of_error (h : Gives x Q E) {e : ε} (hx : x = .error e) : E e := by
  subst hx
  exact h.run

theorem Gives.weaken {Q' : α → Prop} (h : Gives x Q E) (hQ : ∀ a, Q a → Q' a) :
    Gives x Q' E := by
  cases x with
  | ok a => exact ⟨hQ a h.run⟩
  | error e => exact ⟨h.run⟩

end Gives

end Contracts
