import Mathlib.Data.List.Forall2
import Overload.Proofs.Unification

/-!
# Two runs compared

What the comparisons of two inferences have in common, whichever way their stores are related.
`Matched R` says that both end with values or both with the same error, texts aside, and that `R`
holds between the stores either way. There is one rule for each way of putting computations
together. Reports and other readings may be made on one side and not on the other, since readers
leave a store as it was.
-/

namespace Overload

/-- The same error; the texts of types in it may differ. -/
inductive TypeError.Like : TypeError → TypeError → Prop
  | mismatch (l r l' r' : String) : Like (.mismatch l r) (.mismatch l' r')
  | recursive (v t v' t' : String) : Like (.recursive v t) (.recursive v' t')
  | undefined (name : String) : Like (.undefined name) (.undefined name)

/-- Run from `σ₁` and `σ₂`, the computations both end with values, which are in `P`, or both with
like errors, and with stores in `R` either way. -/
inductive Matched (R : Store → Store → Prop) (x₁ : Infer α) (σ₁ : Session) (x₂ : Infer β)
    (σ₂ : Session) (P : α → β → Store → Store → Prop) : Prop
  | ok {a : α} {b : β} {σ₁' σ₂' : Session} : x₁ σ₁ = .ok a σ₁' → x₂ σ₂ = .ok b σ₂' →
      R σ₁'.store σ₂'.store → P a b σ₁'.store σ₂'.store → Matched R x₁ σ₁ x₂ σ₂ P
  | error {e₁ e₂ : TypeError} {σ₁' σ₂' : Session} : x₁ σ₁ = .error e₁ σ₁' →
      x₂ σ₂ = .error e₂ σ₂' → R σ₁'.store σ₂'.store → e₁.Like e₂ → Matched R x₁ σ₁ x₂ σ₂ P

namespace Matched

variable {R R' : Store → Store → Prop} {σ₁ σ₂ : Session} {α β γ δ : Type}
  {P : α → β → Store → Store → Prop} {Q : γ → δ → Store → Store → Prop}

theorem pure (h : R σ₁.store σ₂.store) {a : α} {b : β} (hP : P a b σ₁.store σ₂.store) :
    Matched R (pure a) σ₁ (pure b) σ₂ P :=
  .ok rfl rfl h hP

theorem throw (h : R σ₁.store σ₂.store) {e₁ e₂ : TypeError} (hlike : e₁.Like e₂) :
    Matched R (throw e₁ : Infer α) σ₁ (throw e₂ : Infer β) σ₂ P :=
  .error rfl rfl h hlike

theorem lift {x₁ : StoreM α} {x₂ : StoreM β} (h : R (x₁ σ₁.store).2 (x₂ σ₂.store).2)
    (hP : P (x₁ σ₁.store).1 (x₂ σ₂.store).1 (x₁ σ₁.store).2 (x₂ σ₂.store).2) :
    Matched R (liftM x₁) σ₁ (liftM x₂) σ₂ P :=
  .ok rfl rfl h hP

theorem mono {x₁ : Infer α} {x₂ : Infer β} {P' : α → β → Store → Store → Prop}
    (hx : Matched R x₁ σ₁ x₂ σ₂ P) (hR : ∀ {s₁ s₂}, R s₁ s₂ → R' s₁ s₂)
    (hP : ∀ {a b s₁ s₂}, R s₁ s₂ → P a b s₁ s₂ → P' a b s₁ s₂) :
    Matched R' x₁ σ₁ x₂ σ₂ P' := by
  cases hx with
  | ok h₁ h₂ h hab => exact .ok h₁ h₂ (hR h) (hP h hab)
  | error h₁ h₂ h hlike => exact .error h₁ h₂ (hR h) hlike

theorem bind {x₁ : Infer α} {x₂ : Infer β} {f₁ : α → Infer γ} {f₂ : β → Infer δ}
    (hx : Matched R x₁ σ₁ x₂ σ₂ P)
    (hf : ∀ a b σ₁' σ₂', R σ₁'.store σ₂'.store → P a b σ₁'.store σ₂'.store →
      Matched R (f₁ a) σ₁' (f₂ b) σ₂' Q) :
    Matched R (x₁ >>= f₁) σ₁ (x₂ >>= f₂) σ₂ Q := by
  cases hx with
  | ok h₁ h₂ h hP =>
      have hbind₁ := bind_of_ok (f := f₁) h₁
      have hbind₂ := bind_of_ok (f := f₂) h₂
      cases hf _ _ _ _ h hP with
      | ok h₁' h₂' h' hQ => exact .ok (hbind₁.trans h₁') (hbind₂.trans h₂') h' hQ
      | error h₁' h₂' h' hlike => exact .error (hbind₁.trans h₁') (hbind₂.trans h₂') h' hlike
  | error h₁ h₂ h hlike => exact .error (bind_of_error h₁) (bind_of_error h₂) h hlike

/-- A step that cannot fail may be taken on one side alone. -/
theorem bind_left {x₁ : Infer α} {f₁ : α → Infer γ} {y₂ : Infer δ} {A : α → Session → Prop}
    (h₁ : Ends x₁ σ₁ A fun _ _ => False)
    (hf : ∀ a σ₁', A a σ₁' → Matched R (f₁ a) σ₁' y₂ σ₂ Q) :
    Matched R (x₁ >>= f₁) σ₁ y₂ σ₂ Q := by
  obtain ⟨a, σ₁', hx₁, ha⟩ := h₁.exists_ok fun _ _ h => h
  have hbind := bind_of_ok (f := f₁) hx₁
  cases hf a σ₁' ha with
  | ok h₁' h₂' h hQ => exact .ok (hbind.trans h₁') h₂' h hQ
  | error h₁' h₂' h hlike => exact .error (hbind.trans h₁') h₂' h hlike

theorem bind_right {y₁ : Infer γ} {x₂ : Infer β} {f₂ : β → Infer δ} {B : β → Session → Prop}
    (h₂ : Ends x₂ σ₂ B fun _ _ => False)
    (hf : ∀ b σ₂', B b σ₂' → Matched R y₁ σ₁ (f₂ b) σ₂' Q) :
    Matched R y₁ σ₁ (x₂ >>= f₂) σ₂ Q := by
  obtain ⟨b, σ₂', hx₂, hb⟩ := h₂.exists_ok fun _ _ h => h
  have hbind := bind_of_ok (f := f₂) hx₂
  cases hf b σ₂' hb with
  | ok h₁' h₂' h hQ => exact .ok h₁' (hbind.trans h₂') h hQ
  | error h₁' h₂' h hlike => exact .error h₁' (hbind.trans h₂') h hlike

theorem bind_ends {x₁ : Infer α} {x₂ : Infer β} {f₁ : α → Infer γ} {f₂ : β → Infer δ}
    {A : α → Session → Prop} {B : β → Session → Prop} (h₁ : Ends x₁ σ₁ A fun _ _ => False)
    (h₂ : Ends x₂ σ₂ B fun _ _ => False)
    (hf : ∀ a b σ₁' σ₂', A a σ₁' → B b σ₂' → Matched R (f₁ a) σ₁' (f₂ b) σ₂' Q) :
    Matched R (x₁ >>= f₁) σ₁ (x₂ >>= f₂) σ₂ Q :=
  bind_left h₁ fun a σ₁' ha => bind_right h₂ fun b σ₂' hb => hf a b σ₁' σ₂' ha hb

/-- What readers answer is known in terms of the stores that the present ones were read from. -/
theorem reads {t₁ t₂ : Store} {x₁ : StoreM α} {x₂ : StoreM β} {f₁ : α → Infer γ}
    {f₂ : β → Infer δ} {A : α → Prop} {B : β → Prop} (h₁ : t₁.Reads x₁ A) (h₂ : t₂.Reads x₂ B)
    (hσ₁ : t₁.Quiet σ₁.store) (hσ₂ : t₂.Quiet σ₂.store)
    (hf : ∀ a b σ₁' σ₂', A a → B b → t₁.Quiet σ₁'.store → t₂.Quiet σ₂'.store →
      Matched R (f₁ a) σ₁' (f₂ b) σ₂' Q) :
    Matched R (liftM x₁ >>= f₁) σ₁ (liftM x₂ >>= f₂) σ₂ Q := by
  obtain ⟨ha, hq₁⟩ := h₁ σ₁.store hσ₁
  obtain ⟨hb, hq₂⟩ := h₂ σ₂.store hσ₂
  exact bind_ends (A := fun a σ' => A a ∧ t₁.Quiet σ'.store)
    (B := fun b σ' => B b ∧ t₂.Quiet σ'.store) (Ends.lift ⟨ha, hq₁⟩) (Ends.lift ⟨hb, hq₂⟩)
    fun a b σ₁' σ₂' h h' => hf a b σ₁' σ₂' h.1 h'.1 h.2 h'.2

/-- What each side is known to end with may be added. -/
theorem and_ends {x₁ : Infer α} {x₂ : Infer β} {A : α → Store → Prop} {B : β → Store → Prop}
    {E F : TypeError → Session → Prop} (hx : Matched R x₁ σ₁ x₂ σ₂ P)
    (h₁ : Ends x₁ σ₁ (fun a σ => A a σ.store) E) (h₂ : Ends x₂ σ₂ (fun b σ => B b σ.store) F) :
    Matched R x₁ σ₁ x₂ σ₂ fun a b s₁' s₂' => P a b s₁' s₂' ∧ A a s₁' ∧ B b s₂' := by
  cases hx with
  | ok hx₁ hx₂ h hP => exact .ok hx₁ hx₂ h ⟨hP, h₁.of_ok hx₁, h₂.of_ok hx₂⟩
  | error hx₁ hx₂ h hlike => exact .error hx₁ hx₂ h hlike

end Matched

/-- Both sides report, or one, or none. -/
theorem announce_matched {R : Store → Store → Prop} {σ₁ σ₂ : Session} {t₁ t₂ : Store}
    (hs₁ : t₁.WellFormed) (hs₂ : t₂.WellFormed) (hσ₁ : t₁.Quiet σ₁.store)
    (hσ₂ : t₂.Quiet σ₂.store) (l₁ r₁ l₂ r₂ : Ty) {f₁ f₂ : Infer Unit}
    {Q : Unit → Unit → Store → Store → Prop}
    (hf : ∀ σ₁' σ₂', t₁.Quiet σ₁'.store → t₂.Quiet σ₂'.store → Matched R f₁ σ₁' f₂ σ₂' Q) :
    Matched R (announce l₁ r₁ >>= fun _ => f₁) σ₁ (announce l₂ r₂ >>= fun _ => f₂) σ₂ Q :=
  .bind_ends (announce_ends hs₁ hσ₁ l₁ r₁) (announce_ends hs₂ hσ₂ l₂ r₂)
    fun _ _ σ₁' σ₂' h₁ h₂ => hf σ₁' σ₂' h₁ h₂

/-- A variable that may be bound to a representative, the occurs check aside. -/
structure Store.MayBind (s : Store) (v : Var) (r : Ty) : Prop where
  unbound : s.link? v = none
  lt_size : v.index < s.size
  representative : s.Representative r
  covers : s.Covers r

theorem Store.MayBind.quiet {s s' : Store} {v : Var} {r : Ty} (h : s.MayBind v r)
    (hq : s.Quiet s') : s'.MayBind v r where
  unbound := (hq.bound_iff v).mpr h.unbound
  lt_size := Nat.lt_of_lt_of_le h.lt_size hq.size_le
  representative := hq.toAlike.representative_iff.mpr h.representative
  covers := h.covers.mono hq.size_le

/-- Equations whose sides are related one by one. -/
theorem forall₂_zip_zip {R : Ty → Ty → Prop} {as bs as' bs' : List Ty} (h : List.Forall₂ R as bs)
    (h' : List.Forall₂ R as' bs') :
    List.Forall₂ (fun q₁ q₂ : Ty × Ty => R q₁.1 q₂.1 ∧ R q₁.2 q₂.2) (as.zip as') (bs.zip bs') := by
  induction h generalizing as' bs' with
  | nil => exact .nil
  | cons hab _ ih =>
      cases h' with
      | nil => exact .nil
      | cons hab' h' => exact .cons ⟨hab, hab'⟩ (ih h')

end Overload
