import Overload.Inference.Expr
import Overload.Proofs.Copying
import Overload.Proofs.Unification

/-!
# What an analysis may touch

An analysis adds equations about the variables it allocates itself and about those that the fixed
variables stand for, and about no others. Said with solutions: where a solution of the new store
agrees with some solution of the old store on the fixed variables, the two can be put together,
the old one on the old variables and the new one on the rest, and the result solves the new store
(`Confined.solved_patch`). This is what lets a `let` be generalised: the equations of its
definition put no condition on anything else in the environment.

`analyze_keeps` shows it for every expression and both outcomes. The type that comes out is in
scope and `Stable`: it does not notice such a change of the old variables either.
-/

namespace Overload

/-- `φ` below the index `n`, and `θ` from there on. -/
def Subst.patch (n : Nat) (φ θ : Subst) : Subst := fun v => if v.index < n then φ v else θ v

namespace Subst

theorem patch_of_lt {n : Nat} {φ θ : Subst} {v : Var} (h : v.index < n) :
    patch n φ θ v = φ v := if_pos h

theorem patch_of_le {n : Nat} {φ θ : Subst} {v : Var} (h : n ≤ v.index) :
    patch n φ θ v = θ v := if_neg (Nat.not_lt.mpr h)

end Subst

namespace Store

/-- The types of the environment and the fixed variables have their cells in the store. -/
structure Scopes (s : Store) (Γ : Env) (fixed : List Var) : Prop where
  env : ∀ {x t}, Γ.get? x = some t → s.Covers t
  fixed : ∀ {f}, f ∈ fixed → f.index < s.size

theorem Covers.subst_patch {s : Store} {t : Ty} (h : s.Covers t) (φ θ : Subst) :
    t.subst (.patch s.size φ θ) = t.subst φ :=
  Ty.subst_congr fun v hv => Subst.patch_of_lt (h v hv)

theorem Scopes.empty {s : Store} {fixed : List Var} (h : ∀ f ∈ fixed, f.index < s.size) :
    s.Scopes .empty fixed :=
  ⟨fun hx => (nomatch hx), fun hf => h _ hf⟩

theorem Scopes.mono {s s' : Store} {Γ : Env} {fixed : List Var} (h : s.Scopes Γ fixed)
    (hle : s.size ≤ s'.size) : s'.Scopes Γ fixed where
  env hx := (h.env hx).mono hle
  fixed hf := Nat.lt_of_lt_of_le (h.fixed hf) hle

theorem Scopes.extend {s : Store} {Γ : Env} {fixed : List Var} (h : s.Scopes Γ fixed) {t : Ty}
    (ht : s.Covers t) (x : String) : s.Scopes (Γ.extend x t) fixed where
  env {y u} hy := by
    by_cases hxy : y = x
    · subst hxy
      rw [Env.get?_extend_self] at hy
      exact Option.some.inj hy ▸ ht
    · rw [Env.get?_extend_of_ne Γ t hxy] at hy
      exact h.env hy
  fixed := h.fixed

theorem Scopes.fix {s : Store} {Γ : Env} {fixed : List Var} (h : s.Scopes Γ fixed) {v : Var}
    (hv : v.index < s.size) : s.Scopes Γ (fixed ++ [v]) where
  env := h.env
  fixed hf := by
    rcases List.mem_append.mp hf with hf | hf
    · exact h.fixed hf
    · rwa [List.mem_singleton.mp hf]

/-- Under a binder its variable is new, fixed, and the type of the name. -/
theorem Scopes.enter {s : Store} {Γ : Env} {fixed : List Var} (h : s.Scopes Γ fixed)
    (p : SupplyId) (x : String) :
    (p.fresh s).2.Scopes (Γ.extend x (.var (p.fresh s).1)) (fixed ++ [(p.fresh s).1]) := by
  have hcov := covers_fresh p s
  exact ((h.mono (by rw [size_fresh]; omega)).extend hcov x).fix (covers_var.mp hcov)

theorem Scopes.leave {s : Store} {Γ : Env} {fixed : List Var} {v : Var}
    (h : s.Scopes Γ (fixed ++ [v])) : s.Scopes Γ fixed :=
  ⟨h.env, fun hf => h.fixed (List.mem_append_left _ hf)⟩

/-! ## Confined changes -/

/-- The new equations are about new variables and what the fixed ones stand for. -/
structure Confined (s : Store) (fixed : List Var) (s' : Store) : Prop extends Evolves s s' where
  solved_patch : ∀ {θ φ}, s'.SolvedBy θ → s.SolvedBy φ → (∀ f ∈ fixed, φ f = θ f) →
    s'.SolvedBy (.patch s.size φ θ)

/-- The value of the term depends on new variables and what the fixed ones stand for. -/
def Stable (s : Store) (fixed : List Var) (s' : Store) (t : Ty) : Prop :=
  ∀ θ φ, s'.SolvedBy θ → s.SolvedBy φ → (∀ f ∈ fixed, φ f = θ f) →
    t.subst (.patch s.size φ θ) = t.subst θ

theorem Confined.refl {s : Store} (hs : s.WellFormed) (fixed : List Var) : s.Confined fixed s where
  toEvolves := .refl hs
  solved_patch _ hφ _ := hφ.congr hs fun _ hv => Subst.patch_of_lt hv

theorem Confined.alike {s₁ s₂ s₃ : Store} {fixed : List Var} (h : s₁.Confined fixed s₂)
    (h' : s₂.Alike s₃) : s₁.Confined fixed s₃ where
  toEvolves := h.toEvolves.trans h'.evolves
  solved_patch hθ hφ hag :=
    (h'.solved_iff _).mpr (h.solved_patch ((h'.solved_iff _).mp hθ) hφ hag)

theorem Stable.extend {s₁ s₂ s₃ : Store} {fixed : List Var} {t : Ty} (h : s₁.Stable fixed s₂ t)
    (h' : s₂.Extends s₃) : s₁.Stable fixed s₃ t := fun θ φ hθ => h θ φ (h'.solved θ hθ)

theorem Stable.con {s s' : Store} {fixed : List Var} {c : TypeCon} {args : List Ty}
    (h : ∀ t ∈ args, s.Stable fixed s' t) : s.Stable fixed s' (.con c args) := by
  intro θ φ hθ hφ hag
  rw [Ty.subst_con, Ty.subst_con]
  exact congrArg (Ty.con c) (List.map_congr_left fun t ht => h t ht θ φ hθ hφ hag)

theorem Stable.fn {s s' : Store} {fixed : List Var} {t u : Ty} (ht : s.Stable fixed s' t)
    (hu : s.Stable fixed s' u) : s.Stable fixed s' (.fn t u) := by
  refine .con fun v hv => ?_
  rcases List.mem_pair.mp hv with rfl | rfl
  · exact ht
  · exact hu

theorem stable_of_new {s s' : Store} {fixed : List Var} {t : Ty}
    (h : ∀ w ∈ t.vars, s.size ≤ w.index) : s.Stable fixed s' t :=
  fun _ _ _ _ _ => Ty.subst_congr fun w hw => Subst.patch_of_le (h w hw)

/-- The later fixed variables are earlier ones or new. -/
def Fixes (s : Store) (fixed later : List Var) : Prop :=
  ∀ f ∈ later, f ∈ fixed ∨ s.size ≤ f.index

theorem Fixes.refl (s : Store) (fixed : List Var) : s.Fixes fixed fixed := fun _ hf => .inl hf

theorem Fixes.bind {s : Store} {fixed later : List Var} (h : s.Fixes fixed later) {v : Var}
    (hv : s.size ≤ v.index) : s.Fixes fixed (later ++ [v]) := by
  intro f hf
  rcases List.mem_append.mp hf with hf | hf
  · exact h f hf
  · obtain rfl := List.mem_singleton.mp hf
    exact .inr hv

theorem Fixes.patch_agree {s : Store} {fixed later : List Var} (h : s.Fixes fixed later)
    {θ φ : Subst} (hag : ∀ f ∈ fixed, φ f = θ f) :
    ∀ f ∈ later, Subst.patch s.size φ θ f = θ f := by
  intro f hf
  by_cases hlt : f.index < s.size
  · rw [Subst.patch_of_lt hlt]
    exact hag f ((h f hf).resolve_right (by omega))
  · exact Subst.patch_of_le (Nat.not_lt.mp hlt)

/-- A copy shares only what the fixed variables stand for. -/
theorem IsCopy.stable {s₁ s₂ s₃ : Store} {fixed later : List Var} {t u : Ty}
    (hcopy : s₂.IsCopy later t s₃ u) (h : s₁.Confined fixed s₂) (hlater : s₁.Fixes fixed later) :
    s₁.Stable fixed s₃ u := by
  intro θ φ hθ hφ hag
  have hθ₂ := (hcopy.alike.solved_iff θ).mp hθ
  refine Ty.subst_congr fun w hw => ?_
  rcases hcopy.mem_vars hw with ⟨hk, -⟩ | ⟨hle, -⟩
  · exact hθ₂.agree_varsOf (h.solved_patch hθ₂ hφ hag) (hlater.patch_agree hag) w hk
  · exact Subst.patch_of_le (Nat.le_trans h.size_le hle)

theorem Confined.adds {s₁ s₂ s₃ : Store} {fixed : List Var} {l r : Ty} (h : s₁.Confined fixed s₂)
    (hl : s₁.Stable fixed s₂ l) (hr : s₁.Stable fixed s₂ r) (h' : s₂.Adds [(l, r)] s₃) :
    s₁.Confined fixed s₃ where
  toEvolves := h.toEvolves.trans h'.toEvolves
  solved_patch hθ hφ hag := by
    obtain ⟨hθ₂, heq⟩ := (h'.solved_iff _).mp hθ
    refine (h'.solved_iff _).mpr ⟨h.solved_patch hθ₂ hφ hag, heq.of_agree ?_⟩
    exact agree_singleton.mpr ⟨hl _ _ hθ₂ hφ hag, hr _ _ hθ₂ hφ hag⟩

theorem Confined.rejects {s₁ s₂ s₃ : Store} {fixed : List Var} {l r : Ty}
    (h : s₁.Confined fixed s₂) (hl : s₁.Stable fixed s₂ l) (hr : s₁.Stable fixed s₂ r)
    (h' : s₂.Rejects [(l, r)] s₃) : s₁.Confined fixed s₃ where
  toEvolves := h.toEvolves.trans h'.toEvolves
  solved_patch hθ hφ hag := by
    have hθ₂ := h'.solved _ hθ
    refine h'.confined _ _ hθ (h.solved_patch hθ₂ hφ hag) ?_
    exact agree_singleton.mpr ⟨hl _ _ hθ₂ hφ hag, hr _ _ hθ₂ hφ hag⟩

/-- A type that may be unified further: it is in scope, and its value is the analysis' own. -/
structure Owns (s : Store) (fixed : List Var) (s' : Store) (t : Ty) : Prop where
  covers : s'.Covers t
  stable : s.Stable fixed s' t

theorem Owns.extend {s₁ s₂ s₃ : Store} {fixed : List Var} {t : Ty} (h : s₁.Owns fixed s₂ t)
    (h' : s₂.Extends s₃) : s₁.Owns fixed s₃ t :=
  ⟨h.covers.mono h'.size_le, h.stable.extend h'⟩

theorem Owns.con {s s' : Store} {fixed : List Var} {c : TypeCon} {args : List Ty}
    (h : ∀ t ∈ args, s.Owns fixed s' t) : s.Owns fixed s' (.con c args) :=
  ⟨covers_con.mpr fun t ht => (h t ht).covers, .con fun t ht => (h t ht).stable⟩

theorem Owns.fn {s s' : Store} {fixed : List Var} {t u : Ty} (ht : s.Owns fixed s' t)
    (hu : s.Owns fixed s' u) : s.Owns fixed s' (.fn t u) :=
  ⟨covers_fn.mpr ⟨ht.covers, hu.covers⟩, ht.stable.fn hu.stable⟩

theorem Confined.owns_fresh {s s' : Store} {fixed : List Var} (h : s.Confined fixed s')
    (p : SupplyId) : s.Owns fixed (p.fresh s').2 (.var (p.fresh s').1) := by
  refine ⟨covers_fresh p s', stable_of_new fun w hw => ?_⟩
  obtain rfl := List.mem_singleton.mp (by simpa using hw)
  exact h.size_le

end Store

/-! ## Confined computations -/

/-- From a session reached within the confines, the computation stays within them, and a value that
it ends with is in `P`. -/
def Keeps (x : Infer α) (s : Store) (fixed : List Var) (σ : Session) (P : α → Store → Prop) :
    Prop :=
  Ends x σ (fun a σ' => (s.Confined fixed σ'.store ∧ σ.store.Extends σ'.store) ∧ P a σ'.store)
    fun _ σ' => s.Confined fixed σ'.store

namespace Keeps

variable {α β : Type} {s : Store} {fixed : List Var} {σ : Session} {P : α → Store → Prop}
  {Q : β → Store → Prop}

theorem pure (h : s.Confined fixed σ.store) {a : α} (ha : P a σ.store) :
    Keeps (pure a) s fixed σ P :=
  ⟨⟨h, .refl h.wellFormed⟩, ha⟩

theorem throw (h : s.Confined fixed σ.store) (e : TypeError) :
    Keeps (throw e : Infer α) s fixed σ P := h

theorem bind {x : Infer α} {f : α → Infer β} (hx : Keeps x s fixed σ P)
    (hf : ∀ a σ', s.Confined fixed σ'.store → σ.store.Extends σ'.store → P a σ'.store →
      Keeps (f a) s fixed σ' Q) : Keeps (x >>= f) s fixed σ Q :=
  Ends.bind hx fun a σ' h => Ends.mono (hf a σ' h.1.1 h.1.2 h.2)
    (fun _ _ h' => ⟨⟨h'.1.1, h.1.2.trans h'.1.2⟩, h'.2⟩) fun _ _ h' => h'

theorem lift (h : s.Confined fixed σ.store) {x : StoreM α} (hx : σ.store.Alike (x σ.store).2)
    (hP : P (x σ.store).1 (x σ.store).2) : Keeps (liftM x) s fixed σ P :=
  Ends.lift ⟨⟨h.alike hx, hx.extends⟩, hP⟩

theorem fresh (h : s.Confined fixed σ.store) (p : SupplyId) :
    Keeps (liftM p.fresh) s fixed σ fun v s' => s.size ≤ v.index ∧ s.Owns fixed s' (.var v) :=
  .lift h (Store.alike_fresh h.wellFormed p) ⟨h.size_le, h.owns_fresh p⟩

theorem freshTy (h : s.Confined fixed σ.store) (p : SupplyId) :
    Keeps (liftM p.freshTy) s fixed σ fun t s' => s.Owns fixed s' t :=
  .lift h (Store.alike_fresh h.wellFormed p) (h.owns_fresh p)

theorem unify {l r : Ty} (h : s.Confined fixed σ.store) (hl : s.Owns fixed σ.store l)
    (hr : s.Owns fixed σ.store r) :
    Keeps (unify l r) s fixed σ fun _ s' => σ.store.Adds [(l, r)] s' :=
  Ends.mono (unify_spec h.wellFormed hl.covers hr.covers)
    (fun _ _ h' => ⟨⟨h.adds hl.stable hr.stable h', h'.toExtends⟩, h'⟩)
    fun _ _ h' => h.rejects hl.stable hr.stable h'

end Keeps

/-! ## Expressions -/

theorem analyze_keeps (e : Expr) {p : SupplyId} {Γ : Env} {fixed later : List Var} {s : Store}
    {σ : Session} (h : s.Confined fixed σ.store) (hscope : σ.store.Scopes Γ later)
    (hlater : s.Fixes fixed later) :
    Keeps (e.analyze p Γ later) s fixed σ fun t s' => s.Owns fixed s' t := by
  induction e generalizing Γ later σ with
  | var name =>
      rw [Expr.analyze]
      cases hx : Γ.get? name with
      | none => exact .throw h _
      | some t =>
          have hcopy := Store.isCopy_copy h.wellFormed t later p
          exact .lift h hcopy.alike
            ⟨hcopy.covers h.wellFormed (hscope.env hx), hcopy.stable h hlater⟩
  | app func arg ihf iha =>
      rw [Expr.analyze]
      refine (ihf h hscope hlater).bind fun funcTy σ₁ h₁ hext₁ hfunc => ?_
      refine (iha h₁ (hscope.mono hext₁.size_le) hlater).bind fun argTy σ₂ h₂ hext₂ harg => ?_
      refine (Keeps.freshTy h₂ p).bind fun result σ₃ h₃ hext₃ hres => ?_
      have hunify := Keeps.unify h₃ ((harg.extend hext₃).fn hres)
        (hfunc.extend (hext₂.trans hext₃))
      exact hunify.bind fun _ σ₄ h₄ hext₄ _ => .pure h₄ (hres.extend hext₄)
  | lam param body ih =>
      rw [Expr.analyze]
      refine (Keeps.fresh h p).bind fun v σ₁ h₁ hext₁ ⟨hnew, hv⟩ => ?_
      have hin := (hscope.mono hext₁.size_le).extend hv.covers param
      have hbody := ih h₁ (hin.fix (Store.covers_var.mp hv.covers)) (hlater.bind hnew)
      exact hbody.bind fun bodyTy σ₂ h₂ hext₂ hbodyTy => .pure h₂ ((hv.extend hext₂).fn hbodyTy)
  | letRec name defn body ihd ihb =>
      rw [Expr.analyze]
      refine (Keeps.fresh h p).bind fun v σ₁ h₁ hext₁ ⟨hnew, hv⟩ => ?_
      have hin := (hscope.mono hext₁.size_le).extend hv.covers name
      have hdefn := ihd h₁ (hin.fix (Store.covers_var.mp hv.covers)) (hlater.bind hnew)
      refine hdefn.bind fun defnTy σ₂ h₂ hext₂ hdefnTy => ?_
      refine (Keeps.unify h₂ (hv.extend hext₂) hdefnTy).bind fun _ σ₃ h₃ hext₃ _ => ?_
      exact ihb h₃ (hin.mono (hext₂.trans hext₃).size_le) hlater

theorem analyze_confined (e : Expr) {p : SupplyId} {Γ : Env} {fixed : List Var} {σ : Session}
    (hs : σ.store.WellFormed) (hscope : σ.store.Scopes Γ fixed) :
    Ends (e.analyze p Γ fixed) σ
      (fun t σ' => σ.store.Confined fixed σ'.store ∧ σ'.store.Covers t)
      fun _ σ' => σ.store.Confined fixed σ'.store :=
  Ends.mono (analyze_keeps e (.refl hs fixed) hscope (.refl σ.store fixed))
    (fun _ _ h => ⟨h.1.1, h.2.covers⟩) fun _ _ h => h

end Overload
