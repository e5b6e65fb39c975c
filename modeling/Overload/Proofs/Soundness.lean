import Overload.Proofs.Analysis
import Overload.Proofs.HindleyMilner

/-!
# Inference is sound

What an analysis returns can be derived in the declarative system (`analyze_sound`). The environment
of an analysis has no schemes: a use of a name copies its type, and what is generic is decided anew
each time, against fixed variables that later unifications refine. The induction therefore goes over
all solutions `θ` of the final store at once, and asks of a context only that its schemes have the
instances that the entries of the environment can take in the *first* store with the fixed variables
as in `θ` (`Offers`). The store only grows, so the condition passes on to every later one.

For a `let` the definition has to be typed once and for all uses. `exists_generic_solution` picks
the solution for it: as `θ` on the fixed variables, and with everything else left open.
-/

namespace Overload

/-- The variables of the values that `θ` gives. -/
def Subst.varsAt (θ : Subst) (vs : List Var) : List Var := vs.flatMap fun v => (θ v).vars

theorem Subst.varsAt_append (θ : Subst) (vs : List Var) (v : Var) :
    θ.varsAt (vs ++ [v]) = θ.varsAt vs ++ (θ v).vars := by
  simp [varsAt]

theorem Subst.varsAt_congr {θ φ : Subst} {vs : List Var} (h : ∀ v ∈ vs, φ v = θ v) :
    φ.varsAt vs = θ.varsAt vs :=
  List.flatMap_congr fun v hv => by rw [h v hv]

namespace Store

theorem SolvedBy.varsAt_eq {s : Store} {θ : Subst} (hθ : s.SolvedBy θ) (fixed : List Var) :
    θ.varsAt fixed = θ.varsAt (s.varsOf fixed) := by
  rw [Subst.varsAt, Subst.varsAt, varsOf, List.flatMap_assoc]
  refine List.flatMap_congr fun f _ => ?_
  rw [← Ty.vars_subst, hθ.subst_resolve, Ty.subst_var]

/-- A solution is determined on some variables by its values on what those stand for. -/
theorem SolvedBy.subst_resolve_of_agree {s : Store} {θ ψ : Subst} (hθ : s.SolvedBy θ)
    {vs : List Var} (h : ∀ v ∈ s.varsOf vs, ψ v = θ v) :
    ∀ v ∈ vs, (s.resolve (.var v)).subst ψ = θ v := by
  intro v hv
  have hkept : ∀ w ∈ (s.resolve (.var v)).vars, ψ w = θ w :=
    fun w hw => h w (List.mem_flatMap.mpr ⟨v, hv, hw⟩)
  rw [Ty.subst_congr hkept, hθ.subst_resolve, Ty.subst_var]

/-- A solution with the values of `θ` on the fixed variables, from which every such solution takes
its value of `v` as an instance. -/
theorem exists_generic_solution {s : Store} (hs : s.WellFormed) {θ : Subst} (hθ : s.SolvedBy θ)
    (fixed : List Var) (v : Var) :
    ∃ θ', s.SolvedBy θ' ∧ (∀ f ∈ fixed, θ' f = θ f)
      ∧ ∀ φ, s.SolvedBy φ → (∀ f ∈ fixed, φ f = θ f) →
          (Scheme.generalize (θ.varsAt fixed) (θ' v)).Instance (φ v) := by
  let σ := Scheme.generalize (s.varsOf fixed) (s.resolve (.var v))
  let n := Scheme.beyond (θ.varsAt fixed)
  refine ⟨_, solvedBy_resolve_comp hs.acyclic (σ.apart n θ), ?_, fun φ hφ hag => ?_⟩
  · refine hθ.subst_resolve_of_agree fun u hu => if_neg fun hq => ?_
    exact of_decide_eq_true (List.mem_filter.mp hq).2 hu
  · have hn : ∀ u ∈ σ.free, ∀ w ∈ (θ u).vars, w.index < n := by
      intro u hu w hw
      refine Scheme.lt_beyond ?_
      rw [hθ.varsAt_eq]
      exact List.mem_flatMap.mpr ⟨u, (Scheme.mem_free_generalize.mp hu).2, hw⟩
    have hinst : (σ.substApart n θ).Instance (φ v) := by
      refine (Scheme.instance_substApart hn).mpr ⟨φ, fun u hu => ?_, ?_⟩
      · exact hθ.agree_varsOf hφ hag u (Scheme.mem_free_generalize.mp hu).2
      · exact ((hφ.subst_resolve (.var v)).trans (Ty.subst_var φ v)).symm
    exact hinst.generalize fun w hw => Scheme.lt_beyond hw

/-- The schemes of `Δ` have the instances that the entries of `Γ` can take, with the fixed variables
as in `θ`. -/
def Offers (s : Store) (fixed : List Var) (θ : Subst) (Γ : Env) (Δ : Context) : Prop :=
  ∀ x t, Γ.get? x = some t → ∃ σ : Scheme, Δ.lookup x = some σ
    ∧ ∀ φ, s.SolvedBy φ → (∀ f ∈ fixed, φ f = θ f) → σ.Instance (t.subst φ)

theorem Offers.extend {s s' : Store} {fixed later : List Var} {θ θ' : Subst} {Γ : Env}
    {Δ : Context} (h : s.Offers fixed θ Γ Δ) (hext : s.Extends s')
    (hθ : ∀ f ∈ fixed, f ∈ later ∧ θ' f = θ f) : s'.Offers later θ' Γ Δ := by
  intro x t hx
  obtain ⟨σ, hσ, hinst⟩ := h x t hx
  refine ⟨σ, hσ, fun φ hφ hag => hinst φ (hext.solved φ hφ) fun f hf => ?_⟩
  rw [hag f (hθ f hf).1, (hθ f hf).2]

theorem Offers.cons {s : Store} {fixed : List Var} {θ : Subst} {Γ : Env} {Δ : Context}
    (h : s.Offers fixed θ Γ Δ) {t : Ty} {σ : Scheme} (x : String)
    (hσ : ∀ φ, s.SolvedBy φ → (∀ f ∈ fixed, φ f = θ f) → σ.Instance (t.subst φ)) :
    s.Offers fixed θ (Γ.extend x t) ((x, σ) :: Δ) := by
  intro y u hy
  by_cases hxy : y = x
  · subst hxy
    rw [Env.get?_extend_self] at hy
    obtain rfl := Option.some.inj hy
    exact ⟨σ, List.lookup_cons_self, hσ⟩
  · rw [Env.get?_extend_of_ne Γ t hxy] at hy
    obtain ⟨σ', hσ', hinst⟩ := h y u hy
    refine ⟨σ', ?_, hinst⟩
    rw [List.lookup_cons, beq_false_of_ne hxy]
    exact hσ'

/-- A binder is monomorphic, with the value of its variable. -/
theorem Offers.enter {s s' : Store} {fixed : List Var} {θ θ' : Subst} {Γ : Env} {Δ : Context}
    (h : s.Offers fixed θ Γ Δ) (hext : s.Extends s') (x : String) (v : Var)
    (hθ : ∀ f ∈ fixed, θ' f = θ f) :
    s'.Offers (fixed ++ [v]) θ' (Γ.extend x (.var v)) ((x, .mono (θ' v)) :: Δ) := by
  have hlater := h.extend hext fun f hf => ⟨List.mem_append_left [v] hf, hθ f hf⟩
  refine hlater.cons x fun φ _ hag => ?_
  rw [Ty.subst_var, Scheme.instance_mono]
  exact hag v (List.mem_append_right _ (List.mem_singleton.mpr rfl))

end Store

/-- By induction on the expression, for all solutions `θ` of the store that the analysis ends with
and all contexts `Δ` that offer what the environment can take in the store it starts from. A
solution at the end is one at every store before, so each part is typed under the same `θ`; the type
that is generalised at a definition is its value in `θ`, apart from the fixed variables. -/
theorem analyze_hasType (e : Expr) {p : SupplyId} {Γ : Env} {fixed : List Var} {σ : Session}
    (hs : σ.store.WellFormed) (hscope : σ.store.Scopes Γ fixed) :
    Ends (e.analyze p Γ fixed) σ
      (fun t σ' => ∀ θ Δ, σ'.store.SolvedBy θ → σ.store.Offers fixed θ Γ Δ →
        HasType (θ.varsAt fixed) Δ e (t.subst θ))
      fun _ _ => True := by
  induction e generalizing Γ fixed σ with
  | var name =>
      rw [Expr.analyze]
      cases hx : Γ.get? name with
      | none => exact Ends.throw trivial
      | some t =>
          have hcopy := Store.isCopy_copy hs t fixed p
          refine Ends.lift fun θ Δ hθ hΔ => ?_
          obtain ⟨sch, hsch, hinst⟩ := hΔ name t hx
          obtain ⟨φ, hφ, hag, heq⟩ := hcopy.value hs ((hcopy.alike.solved_iff θ).mp hθ)
          exact .var hsch (heq ▸ hinst φ hφ hag)
  | app func arg ihf iha =>
      rw [Expr.analyze]
      refine Ends.bind ((ihf hs hscope).and (analyze_confined func hs hscope)) ?_
      rintro funcTy σ₁ ⟨hfunc, h₁, hcov₁⟩
      have hscope₁ := hscope.mono h₁.size_le
      refine Ends.bind ((iha h₁.wellFormed hscope₁).and
        (analyze_confined arg h₁.wellFormed hscope₁)) ?_
      rintro argTy σ₂ ⟨harg, h₂, hcov₂⟩
      refine Ends.lift_bind ?_
      have halike := Store.alike_fresh h₂.wellFormed p
      have hfn := Store.covers_fn.mpr ⟨hcov₂.mono halike.size_le, Store.covers_fresh p σ₂.store⟩
      have hunify := unify_spec (σ := { σ₂ with store := (p.fresh σ₂.store).2 }) halike.wellFormed
        hfn (hcov₁.mono (h₂.toExtends.trans halike.extends).size_le)
      refine Ends.bind (hunify.mono (fun _ _ h => h) fun _ _ _ => trivial) fun _ σ₃ h₃ => ?_
      refine Ends.pure fun θ Δ hθ hΔ => ?_
      obtain ⟨hθ₃, heq⟩ := (h₃.solved_iff θ).mp hθ
      have hθ₂ := halike.extends.solved θ hθ₃
      have hfunc := hfunc θ Δ (h₂.solved θ hθ₂) hΔ
      have harg := harg θ Δ hθ₂ (hΔ.extend h₁.toExtends fun f hf => ⟨hf, rfl⟩)
      rw [← solves_singleton.mp heq, Ty.subst_fn] at hfunc
      exact .app hfunc harg
  | lam param body ih =>
      rw [Expr.analyze]
      refine Ends.lift_bind ?_
      have halike := Store.alike_fresh hs p
      have hin := hscope.enter p param
      refine Ends.bind (ih (σ := { σ with store := (p.fresh σ.store).2 }) halike.wellFormed hin) ?_
      intro bodyTy σ₁ hbody
      refine Ends.pure fun θ Δ hθ hΔ => ?_
      have hΔ₁ := hΔ.enter halike.extends param (p.fresh σ.store).1 fun f hf => rfl
      have hbody := hbody θ _ hθ hΔ₁
      rw [Subst.varsAt_append] at hbody
      rw [Ty.subst_fn, Ty.subst_var]
      exact .lam hbody
  | letRec name defn body ihd ihb =>
      rw [Expr.analyze]
      refine Ends.lift_bind ?_
      have halike := Store.alike_fresh hs p
      have hin := hscope.enter p name
      refine Ends.bind ((ihd (σ := { σ with store := (p.fresh σ.store).2 }) halike.wellFormed
        hin).and (analyze_confined defn halike.wellFormed hin)) ?_
      rintro defnTy σ₁ ⟨hdefn, h₁, hcov₁⟩
      have hin₁ := hin.mono h₁.size_le
      have hunify := unify_spec h₁.wellFormed (hin₁.env (Env.get?_extend_self ..)) hcov₁
      refine Ends.bind (hunify.mono (fun _ _ h => h) fun _ _ _ => trivial) fun _ σ₂ h₂ => ?_
      have hout := (hin₁.mono h₂.size_le).leave
      refine Ends.mono ((ihb h₂.wellFormed hout).and (analyze_confined body h₂.wellFormed hout)) ?_
        fun _ _ h => h
      rintro t σ₃ ⟨hbody, h₃, -⟩ θ Δ hθ hΔ
      -- the definition is typed for the solution that leaves most open
      obtain ⟨θ', hθ', hag, hgen⟩ := Store.exists_generic_solution h₂.wellFormed
        (h₃.solved θ hθ) fixed (p.fresh σ.store).1
      obtain ⟨hθ'₁, heq⟩ := (h₂.solved_iff θ').mp hθ'
      have hΔ₁ := hΔ.enter halike.extends name (p.fresh σ.store).1 hag
      have hdefn := hdefn θ' _ hθ'₁ hΔ₁
      rw [Subst.varsAt_append, Subst.varsAt_congr hag, ← solves_singleton.mp heq,
        Ty.subst_var] at hdefn
      have hΔ₂ := hΔ.extend (halike.extends.trans (h₁.toExtends.trans h₂.toExtends))
        fun f hf => ⟨hf, rfl⟩
      refine .letRec hdefn (hbody θ _ hθ (hΔ₂.cons name fun φ hφ hφθ => ?_))
      rw [Ty.subst_var]
      exact hgen φ hφ hφθ

/-- With everything resolved in the final store, the type that an analysis returns is derivable. -/
theorem analyze_sound {e : Expr} {p : SupplyId} {Γ : Env} {fixed : List Var} {σ σ' : Session}
    {t : Ty} (hs : σ.store.WellFormed) (hscope : σ.store.Scopes Γ fixed)
    (h : e.analyze p Γ fixed σ = .ok t σ') :
    HasType (σ'.store.varsOf fixed) (Γ.schemes σ'.store fixed) e (σ'.store.resolve t) := by
  obtain ⟨hconf, -⟩ := Ends.of_ok (analyze_confined e hs hscope) h
  have hacyclic := hconf.wellFormed.acyclic
  have hθ := Store.solvedBy_resolve hacyclic
  rw [Store.resolve_eq_subst σ'.store t]
  refine Ends.of_ok (analyze_hasType e hs hscope) h _ _ hθ fun x u hx => ?_
  refine ⟨_, by rw [Env.lookup_schemes, hx]; rfl, fun φ hφ hag => ?_⟩
  -- on the old variables as `φ`, on the new ones as resolved
  have hφ' := hconf.solved_patch hθ hφ hag
  have hfixes := Store.Fixes.refl σ.store fixed
  rw [← (hscope.env hx).subst_patch φ, ← hφ'.subst_resolve u]
  refine Scheme.instance_iff.mpr ⟨_, fun v hv => ?_, rfl⟩
  obtain ⟨hvu, hv⟩ := Scheme.mem_free_generalize.mp hv
  rw [hθ.agree_varsOf hφ' (hfixes.patch_agree hag) v hv]
  exact Store.resolve_of_unbound (Store.unlinked_resolve hacyclic u v hvu)

/-- Under `#0 := List #1` with `#0` fixed, the result of `k : #1 -> #2` is generic and its parameter
is not. -/
theorem analyze_sound_sample :
    let Γ := Env.empty.extend "k" (.fn (.var ⟨1⟩) (.var ⟨2⟩))
    let e := Expr.letRec "f" (.lam "x" (.app (.var "k") (.var "x"))) (.var "f")
    Store.sample.WellFormed ∧ Store.sample.Scopes Γ [⟨0⟩]
      ∧ ∃ t σ', e.analyze 0 Γ [⟨0⟩] { store := Store.sample } = .ok t σ'
        ∧ HasType (σ'.store.varsOf [⟨0⟩]) (Γ.schemes σ'.store [⟨0⟩]) e (σ'.store.resolve t) := by
  intro Γ e
  have hk : Store.sample.Covers (.fn (.var ⟨1⟩) (.var ⟨2⟩)) :=
    Store.covers_fn.mpr ⟨Store.covers_var.mpr (by decide), Store.covers_var.mpr (by decide)⟩
  have hscope : Store.sample.Scopes Γ [⟨0⟩] := .extend (.empty (by decide)) hk "k"
  obtain ⟨t, σ', h, -⟩ : Succeeds (e.analyze 0 Γ [⟨0⟩] { store := Store.sample })
      fun _ _ => True := by decide +kernel
  exact ⟨Store.sample_wellFormed, hscope, t, σ', h,
    analyze_sound (σ := { store := Store.sample }) Store.sample_wellFormed hscope h⟩

end Overload
