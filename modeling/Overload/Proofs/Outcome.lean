import Overload.Inference.Unify
import Overload.Proofs.Observation

/-!
# Outcomes of inference

An inference ends with a value or with an error, and either way with a session. `Ends` states both
postconditions at once, and has one rule for each way of putting computations together. Reading a
term in the middle of an inference goes through `Ends.reads`: the answer is known in terms of the
store that the reading started from.

How a run on given input ends can be decided (`Succeeds`, `Fails`).
-/

namespace Overload

theorem bind_of_ok {x : EStateM ε σ α} {f : α → EStateM ε σ β} {s s' : σ} {a : α}
    (h : x s = .ok a s') : (x >>= f) s = f a s' := by
  show EStateM.bind x f s = f a s'
  rw [EStateM.bind, h]

theorem bind_of_error {x : EStateM ε σ α} {f : α → EStateM ε σ β} {s s' : σ} {e : ε}
    (h : x s = .error e s') : (x >>= f) s = .error e s' := by
  show EStateM.bind x f s = .error e s'
  rw [EStateM.bind, h]

/-! ## Runs on given input -/

/-- The run has a value, which has the property together with the state after it. -/
def Succeeds (r : EStateM.Result ε σ α) (P : α → σ → Prop) : Prop :=
  ∃ a s, r = .ok a s ∧ P a s

/-- The run has an error, which has the property together with the state after it. -/
def Fails (r : EStateM.Result ε σ α) (E : ε → σ → Prop) : Prop :=
  ∃ e s, r = .error e s ∧ E e s

theorem succeeds_ok {a : α} {s : σ} {P : α → σ → Prop} :
    Succeeds (.ok a s : EStateM.Result ε σ α) P ↔ P a s := by
  constructor
  · rintro ⟨a', s', heq, h⟩
    cases heq
    exact h
  · intro h
    exact ⟨a, s, rfl, h⟩

theorem not_succeeds_error {e : ε} {s : σ} {P : α → σ → Prop} :
    ¬Succeeds (.error e s : EStateM.Result ε σ α) P := by
  rintro ⟨a, s', heq, -⟩
  cases heq

theorem fails_error {e : ε} {s : σ} {E : ε → σ → Prop} :
    Fails (.error e s : EStateM.Result ε σ α) E ↔ E e s := by
  constructor
  · rintro ⟨e', s', heq, h⟩
    cases heq
    exact h
  · intro h
    exact ⟨e, s, rfl, h⟩

theorem not_fails_ok {a : α} {s : σ} {E : ε → σ → Prop} :
    ¬Fails (.ok a s : EStateM.Result ε σ α) E := by
  rintro ⟨e, s', heq, -⟩
  cases heq

instance (r : EStateM.Result ε σ α) (P : α → σ → Prop) [∀ a s, Decidable (P a s)] :
    Decidable (Succeeds r P) :=
  match r with
  | .ok a s => decidable_of_iff (P a s) succeeds_ok.symm
  | .error _ _ => isFalse not_succeeds_error

instance (r : EStateM.Result ε σ α) (E : ε → σ → Prop) [∀ e s, Decidable (E e s)] :
    Decidable (Fails r E) :=
  match r with
  | .ok _ _ => isFalse not_fails_ok
  | .error e s => decidable_of_iff (E e s) fails_error.symm

/-! ## Postconditions of inference -/

/-- Run from `σ`, the computation ends with a value and session in `P` or with an error and session
in `E`. -/
def Ends (x : Infer α) (σ : Session) (P : α → Session → Prop) (E : TypeError → Session → Prop) :
    Prop :=
  match x σ with
  | .ok a σ' => P a σ'
  | .error e σ' => E e σ'

namespace Ends

variable {α β : Type} {σ : Session} {P : α → Session → Prop} {Q : β → Session → Prop}
  {E : TypeError → Session → Prop}

theorem of_ok {x : Infer α} {a : α} {σ' : Session} (h : Ends x σ P E) (hx : x σ = .ok a σ') :
    P a σ' := by
  rwa [Ends, hx] at h

theorem of_error {x : Infer α} {e : TypeError} {σ' : Session} (h : Ends x σ P E)
    (hx : x σ = .error e σ') : E e σ' := by
  rwa [Ends, hx] at h

/-- A computation whose errors are ruled out has a value. -/
theorem exists_ok {x : Infer α} (h : Ends x σ P E) (hE : ∀ e σ', ¬E e σ') :
    ∃ a σ', x σ = .ok a σ' ∧ P a σ' := by
  cases hx : x σ with
  | ok a σ' => exact ⟨a, σ', rfl, h.of_ok hx⟩
  | error e σ' => exact (hE e σ' (h.of_error hx)).elim

theorem pure {a : α} (h : P a σ) : Ends (pure a) σ P E := h

theorem throw {e : TypeError} (h : E e σ) : Ends (throw e : Infer α) σ P E := h

theorem mono {P' : α → Session → Prop} {E' : TypeError → Session → Prop} {x : Infer α}
    (h : Ends x σ P E) (hP : ∀ a σ', P a σ' → P' a σ') (hE : ∀ e σ', E e σ' → E' e σ') :
    Ends x σ P' E' := by
  rw [Ends] at h ⊢
  cases hx : x σ with
  | ok a σ' => exact hP a σ' (by rwa [hx] at h)
  | error e σ' => exact hE e σ' (by rwa [hx] at h)

/-- Another fact about the values may be added. -/
theorem and {P' : α → Session → Prop} {E' : TypeError → Session → Prop} {x : Infer α}
    (h : Ends x σ P E) (h' : Ends x σ P' E') : Ends x σ (fun a σ' => P a σ' ∧ P' a σ') E := by
  rw [Ends] at h h' ⊢
  cases hx : x σ with
  | ok a σ' => exact ⟨by rwa [hx] at h, by rwa [hx] at h'⟩
  | error e σ' => rwa [hx] at h

theorem bind {x : Infer α} {f : α → Infer β} (hx : Ends x σ P E)
    (hf : ∀ a σ', P a σ' → Ends (f a) σ' Q E) : Ends (x >>= f) σ Q E := by
  have hbind : (x >>= f) σ = EStateM.bind x f σ := rfl
  rw [Ends] at hx
  rw [Ends, hbind, EStateM.bind]
  cases h : x σ with
  | ok a σ' =>
      rw [h] at hx
      exact hf a σ' hx
  | error e σ' => rwa [h] at hx

theorem lift {x : StoreM α} (h : P (x σ.store).1 { σ with store := (x σ.store).2 }) :
    Ends (liftM x : Infer α) σ P E := h

theorem lift_bind {x : StoreM α} {f : α → Infer β}
    (h : Ends (f (x σ.store).1) { σ with store := (x σ.store).2 } Q E) :
    Ends (liftM x >>= f) σ Q E := h

/-- What a reader answers is known in terms of any store that the present one was read from. -/
theorem reads {s : Store} {x : StoreM α} {f : α → Infer β} {A : α → Prop} (hx : s.Reads x A)
    (hσ : s.Quiet σ.store) (hf : ∀ a σ', A a → s.Quiet σ'.store → Ends (f a) σ' Q E) :
    Ends (liftM x >>= f) σ Q E := by
  obtain ⟨ha, hq⟩ := hx σ.store hσ
  exact bind (P := fun a σ' => A a ∧ s.Quiet σ'.store) (lift ⟨ha, hq⟩)
    fun a σ' h => hf a σ' h.1 h.2

end Ends

/-- A report reads the two terms. -/
theorem announce_ends {s : Store} (hs : s.WellFormed) {σ : Session} (hσ : s.Quiet σ.store)
    (l r : Ty) {E : TypeError → Session → Prop} :
    Ends (announce l r) σ (fun _ σ' => s.Quiet σ'.store) E := by
  rw [announce]
  refine Ends.bind (P := fun _ σ' => s.Quiet σ'.store) hσ fun _ σ' hσ' => ?_
  split
  · refine Ends.reads (s.reads_display hs l) hσ' fun left σ₁ _ h₁ => ?_
    refine Ends.reads (s.reads_display hs r) h₁ fun right σ₂ _ h₂ => ?_
    exact h₂
  · exact hσ'

end Overload
