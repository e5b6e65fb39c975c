import Overload.Proofs.ValueTypes

/-!
# Stores that can be reached

Whatever is done to a store in which no variable is bound, in any order and with any outcomes, links
never close a cycle (`reachable_acyclic`). Every operation `Extends` the store it starts from, so
what was bound stays bound and what was equal stays equal; an operation that fails midway leaves the
links that it made before, and extends the store as well.
-/

namespace Overload

/-- What can be done to the variables of a session. -/
inductive StoreOp where
  | allocate (p : SupplyId)
  | prune (t : Ty)
  | equal (t u : Ty)
  | freeVars (t : Ty)
  | occursIn (v : Var) (t : Ty)
  | isGeneric (v : Var) (fixed : List Var)
  | copy (t : Ty) (fixed : List Var) (p : SupplyId)
  | copyWith (t : Ty) (fixed : List Var) (p : SupplyId) (m : Renaming)
  | unify (l r : Ty)
  | analyze (e : Expr) (Γ : Env) (fixed : List Var) (p : SupplyId)
  /-- A typed function with or without arguments is a value as well. -/
  | typeOf (v : Value) (p : SupplyId)

/-- The session after a computation, whether it succeeds or fails. -/
def Session.after (σ : Session) (x : Infer α) : Session :=
  match x σ with
  | .ok _ σ' => σ'
  | .error _ σ' => σ'

theorem Ends.after {x : Infer α} {σ : Session} {A : Session → Prop}
    (h : Ends x σ (fun _ => A) fun _ => A) : A (σ.after x) := by
  rw [Ends] at h
  rw [Session.after]
  cases hx : x σ with
  | ok a σ' => rwa [hx] at h
  | error e σ' => rwa [hx] at h

theorem Keeps.extends_after {x : Infer α} {σ : Session} {fixed : List Var}
    {P : α → Store → Prop} (h : Keeps x σ.store fixed σ P) : σ.store.Extends (σ.after x).store :=
  Ends.after (A := fun σ' => σ.store.Extends σ'.store) <|
    Ends.mono h (fun _ _ h' => h'.1.2) fun _ _ h' => h'.toExtends

namespace StoreOp

def run (σ : Session) : StoreOp → Session
  | .allocate p => σ.after (liftM p.fresh : Infer Var)
  | .prune t => σ.after (liftM t.prune : Infer Ty)
  | .equal t u => σ.after (liftM (t.equal u) : Infer Bool)
  | .freeVars t => σ.after (liftM t.freeVars : Infer (List Var))
  | .occursIn v t => σ.after (liftM (v.occursIn t) : Infer Bool)
  | .isGeneric v fixed => σ.after (liftM (v.isGeneric fixed) : Infer Bool)
  | .copy t fixed p => σ.after (liftM (t.copy fixed p) : Infer Ty)
  | .copyWith t fixed p m => σ.after (liftM (t.copyWith fixed p m) : Infer (Ty × Renaming))
  | .unify l r => σ.after (Overload.unify l r)
  | .analyze e Γ fixed p => σ.after (e.analyze p Γ fixed)
  | .typeOf v p => σ.after (v.typeOf p)

/-- The variables that the operation may bind have their cells. Elsewhere a variable without a cell
is as good as an unbound one. -/
def InScope (s : Store) : StoreOp → Prop
  | .unify l r => s.Covers l ∧ s.Covers r
  | .analyze _ Γ fixed _ => s.Scopes Γ fixed
  | .typeOf v _ => ∀ w ∈ v.shared, w.index < s.size
  | _ => True

theorem extends_run {σ : Session} (hs : σ.store.WellFormed) (op : StoreOp)
    (hop : op.InScope σ.store) : σ.store.Extends (op.run σ).store := by
  have hrefl : ∀ fixed, σ.store.Confined fixed σ.store := fun fixed => .refl hs fixed
  cases op with
  | allocate p => exact (Store.alike_fresh hs p).extends
  | prune t => exact ((Store.reads_prune hs t).here hs).2.toAlike.extends
  | equal t u => exact ((Store.reads_equal hs t u).here hs).2.toAlike.extends
  | freeVars t => exact ((Store.reads_freeVars hs t).here hs).2.toAlike.extends
  | occursIn v t => exact ((Store.reads_occursIn hs v t).here hs).2.toAlike.extends
  | isGeneric v fixed => exact ((Store.reads_isGeneric hs v fixed).here hs).2.toAlike.extends
  | copy t fixed p => exact (Store.isCopy_copy hs t fixed p).alike.extends
  | copyWith t fixed p m =>
      exact (Store.copies_copyWith hs t fixed p m σ.store (.refl hs)).1.extends
  | unify l r =>
      refine Ends.after (A := fun σ' => σ.store.Extends σ'.store) ?_
      exact Ends.mono (unify_spec hs hop.1 hop.2) (fun _ _ h => h.toExtends)
        fun _ _ h => h.toExtends
  | analyze e Γ fixed p => exact (analyze_keeps e (hrefl fixed) hop (.refl _ fixed)).extends_after
  | typeOf v p =>
      exact (typeOf_keeps p v (hrefl v.shared) fun w hw => ⟨hw, hop w hw⟩).extends_after

end StoreOp

/-- The sessions that operations lead to from `σ₀`. -/
inductive Reachable (σ₀ : Session) : Session → Prop
  | start : Reachable σ₀ σ₀
  | step {σ : Session} (op : StoreOp) : Reachable σ₀ σ → op.InScope σ.store →
      Reachable σ₀ (op.run σ)

theorem Store.wellFormed_of_unbound {s : Store} (h : ∀ v, s.link? v = none) : s.WellFormed := by
  constructor
  · intro v t hl
    rw [h v] at hl
    cases hl
  · refine acyclic_of_rank (fun _ => 0) ?_
    rintro v w ⟨t, hl, -⟩
    rw [h v] at hl
    cases hl

theorem Reachable.wellFormed {σ₀ σ : Session} (h : Reachable σ₀ σ) (h₀ : σ₀.store.WellFormed) :
    σ.store.WellFormed := by
  induction h with
  | start => exact h₀
  | step op _ hop ih => exact (op.extends_run ih hop).wellFormed

theorem Store.Extends.isBound {s s' : Store} (h : s.Extends s') {v : Var}
    (hv : s.isBound v = true) : s'.isBound v = true := by
  rw [Store.isBound, Option.isSome_iff_ne_none] at hv ⊢
  exact fun hn => hv (h.bound v hn)

theorem Store.Extends.equal {s s' : Store} (hs : s.WellFormed) (h : s.Extends s') {t u : Ty}
    (htu : (t.equal u s).1 = true) : (t.equal u s').1 = true := by
  have hs' := h.wellFormed
  rw [((Store.reads_equal hs t u).here hs).1, decide_eq_true_eq] at htu
  rw [((Store.reads_equal hs' t u).here hs').1, decide_eq_true_eq]
  exact h.resolve_eq htu

/-- Links never close a cycle, a bound variable stays bound, and terms that are equal stay equal. -/
theorem reachable_acyclic {σ₀ σ : Session} (h₀ : ∀ v, σ₀.store.isBound v = false)
    (h : Reachable σ₀ σ) :
    σ.store.Acyclic
      ∧ ∀ op : StoreOp, op.InScope σ.store →
          (∀ v, σ.store.isBound v = true → (op.run σ).store.isBound v = true)
            ∧ ∀ t u : Ty, (t.equal u σ.store).1 = true → (t.equal u (op.run σ).store).1 = true := by
  have hs₀ : σ₀.store.WellFormed := Store.wellFormed_of_unbound fun v => by
    simpa [Store.isBound] using h₀ v
  have hs := h.wellFormed hs₀
  refine ⟨hs.acyclic, fun op hop => ?_⟩
  have hext := op.extends_run hs hop
  exact ⟨fun v => hext.isBound, fun t u => hext.equal hs⟩

/-- `#0 -> #0` and `List #1 -> List (List #1)` bind `#0` before they fail on `#1`. -/
theorem reachable_acyclic_after_failure :
    let l := Ty.fn (.var ⟨0⟩) (.var ⟨0⟩)
    let r := Ty.fn (.list (.var ⟨1⟩)) (.list (.list (.var ⟨1⟩)))
    let σ := (StoreOp.unify l r).run ((StoreOp.allocate 0).run ((StoreOp.allocate 0).run {}))
    (∀ v, Store.isBound {} v = false) ∧ Reachable {} σ
      ∧ σ.store.isBound ⟨0⟩ = true ∧ σ.store.isBound ⟨1⟩ = false ∧ σ.store.Acyclic := by
  intro l r σ
  have h₀ : ∀ v, Store.isBound {} v = false := fun v => by simp [Store.isBound, Store.link?]
  have hscope : (StoreOp.unify l r).InScope
      ((StoreOp.allocate 0).run ((StoreOp.allocate 0).run {})).store := by
    refine ⟨fun w hw => ?_, fun w hw => ?_⟩
    · have hw : w = ⟨0⟩ := by simpa [l] using hw
      rw [hw]
      decide
    · have hw : w = ⟨1⟩ := by simpa [r, Ty.list] using hw
      rw [hw]
      decide
  have h : Reachable {} σ := .step _ (.step _ (.step _ .start trivial) trivial) hscope
  exact ⟨h₀, h, by decide +kernel, by decide +kernel, (reachable_acyclic h₀ h).1⟩

end Overload
