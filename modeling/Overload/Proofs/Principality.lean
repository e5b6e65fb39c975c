import Overload.Proofs.Soundness

/-!
# Inference is complete and principal

An expression that has a type is never rejected, and every type it has is an instance of the one
that inference returns (`analyze_principal`). The induction is over the derivation, and carries one
solution `θ` of the store along: before an expression is analysed it gives the fixed variables the
values that they have in the derivation, and afterwards there is a solution of the larger store that
keeps these values and gives the result the derived type.

The environment is related to the context of the derivation by `Meets`, the converse of `Offers`. It
speaks of solutions of the present store, so it does not pass on to a larger one by itself; it does
because the analysis in between was confined (`Meets.extend`).
-/

namespace Overload

namespace Store

/-! ## Solutions of a larger store -/

/-- The variables of the store have the same values. -/
def SameOn (s : Store) (θ' θ : Subst) : Prop := ∀ v : Var, v.index < s.size → θ' v = θ v

theorem SameOn.trans {s s' : Store} {θ₁ θ₂ θ₃ : Subst} (h' : s'.SameOn θ₃ θ₂)
    (hle : s.size ≤ s'.size) (h : s.SameOn θ₂ θ₁) : s.SameOn θ₃ θ₁ := fun v hv =>
  (h' v (Nat.lt_of_lt_of_le hv hle)).trans (h v hv)

theorem SameOn.subst_eq {s : Store} {θ θ' : Subst} (h : s.SameOn θ' θ) {t : Ty}
    (ht : s.Covers t) : t.subst θ' = t.subst θ :=
  Ty.subst_congr fun v hv => h v (ht v hv)

theorem SameOn.varsAt_eq {s : Store} {θ θ' : Subst} (h : s.SameOn θ' θ) {Γ : Env}
    {fixed : List Var} (hscope : s.Scopes Γ fixed) : θ'.varsAt fixed = θ.varsAt fixed :=
  Subst.varsAt_congr fun f hf => h f (hscope.fixed hf)

/-- A new variable may be given any value. -/
theorem SolvedBy.fresh {s : Store} (hs : s.WellFormed) {θ : Subst} (hθ : s.SolvedBy θ)
    (p : SupplyId) (a : Ty) :
    ∃ θ', (p.fresh s).2.SolvedBy θ' ∧ s.SameOn θ' θ ∧ θ' (p.fresh s).1 = a := by
  have hold : s.SameOn (.patch s.size θ fun _ => a) θ := fun v hv => Subst.patch_of_lt hv
  refine ⟨_, ((alike_fresh hs p).solved_iff _).mpr (hθ.congr hs hold), hold, ?_⟩
  exact Subst.patch_of_le (Nat.le_refl s.size)

/-! ## Environments and contexts -/

/-- Every instance of a scheme of `Δ` is a value that the entry of `Γ` can take, with the fixed
variables as in `θ`. -/
def Meets (s : Store) (fixed : List Var) (θ : Subst) (Γ : Env) (Δ : Context) : Prop :=
  ∀ x σ, Δ.lookup x = some σ → ∃ t, Γ.get? x = some t
    ∧ ∀ u, Scheme.Instance σ u →
        ∃ φ, s.SolvedBy φ ∧ (∀ f ∈ fixed, φ f = θ f) ∧ t.subst φ = u

theorem Meets.extend {s s' : Store} {fixed later : List Var} {θ θ' : Subst} {Γ : Env}
    {Δ : Context} (h : s.Meets fixed θ Γ Δ) (hscope : s.Scopes Γ fixed)
    (hconf : s.Confined fixed s') (hθ' : s'.SolvedBy θ') (hold : s.SameOn θ' θ)
    (hlater : s.Fixes fixed later) :
    s'.Meets later θ' Γ Δ := by
  intro x σ hx
  obtain ⟨t, ht, hmeets⟩ := h x σ hx
  refine ⟨t, ht, fun u hu => ?_⟩
  obtain ⟨φ, hφ, hag, rfl⟩ := hmeets u hu
  have hag' : ∀ f ∈ fixed, φ f = θ' f := fun f hf => by
    rw [hag f hf, hold f (hscope.fixed hf)]
  exact ⟨_, hconf.solved_patch hθ' hφ hag', hlater.patch_agree hag',
    (hscope.env ht).subst_patch φ θ'⟩

theorem Meets.cons {s : Store} {fixed : List Var} {θ : Subst} {Γ : Env} {Δ : Context}
    (h : s.Meets fixed θ Γ Δ) {t : Ty} {σ : Scheme} (x : String)
    (hσ : ∀ u, σ.Instance u → ∃ φ, s.SolvedBy φ ∧ (∀ f ∈ fixed, φ f = θ f) ∧ t.subst φ = u) :
    s.Meets fixed θ (Γ.extend x t) ((x, σ) :: Δ) := by
  intro y σ' hy
  rw [List.lookup_cons] at hy
  by_cases hxy : y = x
  · subst hxy
    rw [beq_self_eq_true] at hy
    obtain rfl := Option.some.inj hy
    exact ⟨t, Env.get?_extend_self Γ y t, hσ⟩
  · rw [beq_false_of_ne hxy] at hy
    obtain ⟨u, hu, hmeets⟩ := h y σ' hy
    exact ⟨u, by rwa [Env.get?_extend_of_ne Γ t hxy], hmeets⟩

theorem meets_schemes {s : Store} (hs : s.WellFormed) {θ : Subst} (hθ : s.SolvedBy θ) (Γ : Env)
    (fixed : List Var) : s.Meets fixed θ Γ ((Γ.schemes s fixed).subst θ) := by
  intro x σ hx
  rw [Context.lookup_subst, Env.lookup_schemes] at hx
  cases hget : Γ.get? x with
  | none =>
      rw [hget] at hx
      cases hx
  | some t =>
      rw [hget] at hx
      obtain rfl := Option.some.inj hx
      refine ⟨t, rfl, fun u hu => ?_⟩
      obtain ⟨φ, hφ, rfl⟩ := Scheme.instance_subst.mp hu
      -- `φ` is the instance, but about variables that the type does not mention it says nothing
      let ψ : Subst := fun v => if v ∈ s.varsOf fixed then θ v else φ v
      refine ⟨_, solvedBy_resolve_comp hs.acyclic ψ,
        hθ.subst_resolve_of_agree fun v hv => if_pos hv, ?_⟩
      rw [subst_resolve_comp]
      refine Ty.subst_congr fun v hv => ?_
      by_cases hM : v ∈ s.varsOf fixed
      · exact (if_pos hM).trans (hφ v (Scheme.mem_free_generalize.mpr ⟨hv, hM⟩)).symm
      · exact if_neg hM

/-- Whatever a derivation makes of a generalised type, some solution gives it to the variable: what
is generalised is as general as any use can need. -/
theorem SolvedBy.exists_of_instance {s : Store} {θ : Subst} (hθ : s.SolvedBy θ)
    {fixed : List Var} {v : Var} {u : Ty}
    (hu : (Scheme.generalize (θ.varsAt fixed) (θ v)).Instance u) :
    ∃ φ, s.SolvedBy φ ∧ (∀ f ∈ fixed, φ f = θ f) ∧ (Ty.var v).subst φ = u := by
  obtain ⟨ι, hι, rfl⟩ := hu
  refine ⟨_, hθ.comp ι, fun f hf => Ty.subst_eq_self fun w hw => hι w fun hq => ?_, ?_⟩
  · have hfree := of_decide_eq_true (List.mem_filter.mp hq).2
    exact hfree (List.mem_flatMap.mpr ⟨f, hf, hw⟩)
  · exact Ty.subst_var ..

/-- Under a binder the new variable takes the type that the derivation gives to the name. -/
theorem Meets.enter {s : Store} {fixed : List Var} {θ : Subst} {Γ : Env} {Δ : Context}
    (h : s.Meets fixed θ Γ Δ) (hs : s.WellFormed) (hscope : s.Scopes Γ fixed)
    (hθ : s.SolvedBy θ) (p : SupplyId) (x : String) (a : Ty) :
    ∃ θ', (p.fresh s).2.SolvedBy θ' ∧ s.SameOn θ' θ ∧ θ' (p.fresh s).1 = a
      ∧ θ'.varsAt (fixed ++ [(p.fresh s).1]) = θ.varsAt fixed ++ a.vars
      ∧ (p.fresh s).2.Meets (fixed ++ [(p.fresh s).1]) θ' (Γ.extend x (.var (p.fresh s).1))
          ((x, .mono a) :: Δ) := by
  obtain ⟨θ', hθ', hold, hv⟩ := hθ.fresh hs p a
  have hconf := (Confined.refl hs fixed).alike (alike_fresh hs p)
  have hlater := h.extend hscope hconf hθ' hold ((Fixes.refl s fixed).bind (Nat.le_refl _))
  refine ⟨θ', hθ', hold, hv, ?_, hlater.cons x fun u hu => ⟨θ', hθ', fun f _ => rfl, ?_⟩⟩
  · rw [Subst.varsAt_append, hold.varsAt_eq hscope, hv]
  · rw [Ty.subst_var, hv, Scheme.instance_mono.mp hu]

end Store

/-! ## Analysis along a derivation -/

/-- From a store with the solution `θ`, the analysis succeeds with a type of which `t'` is the value
in a solution that extends `θ`. -/
def Realizes (x : Infer Ty) (σ : Session) (θ : Subst) (t' : Ty) : Prop :=
  Ends x σ
    (fun t σ' => ∃ θ', σ'.store.SolvedBy θ' ∧ σ.store.SameOn θ' θ ∧ t.subst θ' = t')
    fun _ _ => False

/-- Where `θ` solves the equation as well, unification succeeds and keeps it. -/
theorem unify_realizes {l r : Ty} {σ : Session} {θ : Subst} (hs : σ.store.WellFormed)
    (hl : σ.store.Covers l) (hr : σ.store.Covers r) (hθ : σ.store.SolvedBy θ)
    (heq : l.subst θ = r.subst θ) :
    Ends (unify l r) σ (fun _ σ' => σ.store.Adds [(l, r)] σ'.store ∧ σ'.store.SolvedBy θ)
      fun _ _ => False := by
  have heq := solves_singleton.mpr heq
  refine Ends.mono (unify_spec hs hl hr) (fun _ _ h => ⟨h, (h.solved_iff θ).mpr ⟨hθ, heq⟩⟩) ?_
  exact fun _ _ h => h.unsolvable θ hθ heq

/-- By induction on the derivation. What is carried along is a solution `θ` of the present store
under which the environment meets the context of the derivation: every instance that the derivation
may use is the value of the entry in a solution that agrees with `θ` on the fixed variables. Each
new variable is given the value that the derivation demands, so no equation that is added is
unsolvable. -/
theorem analyze_realizes {p : SupplyId} {M : List Var} {Δ : Context} {e : Expr} {t' : Ty}
    (h : HasType M Δ e t') {Γ : Env} {fixed : List Var} {σ : Session} {θ : Subst}
    (hs : σ.store.WellFormed) (hscope : σ.store.Scopes Γ fixed) (hθ : σ.store.SolvedBy θ)
    (hM : M = θ.varsAt fixed) (hΔ : σ.store.Meets fixed θ Γ Δ) :
    Realizes (e.analyze p Γ fixed) σ θ t' := by
  induction h generalizing Γ fixed σ θ with
  | var hx hinst =>
      obtain ⟨t, ht, hmeets⟩ := hΔ _ _ hx
      obtain ⟨φ, hφ, hag, heq⟩ := hmeets _ hinst
      have hcopy := Store.isCopy_copy hs t fixed p
      obtain ⟨θ', hθ', hold, hval⟩ := hcopy.realize hs hθ hφ hag (hscope.env ht)
      rw [Expr.analyze, ht]
      exact Ends.lift ⟨θ', (hcopy.alike.solved_iff θ').mpr hθ', hold, hval.trans heq⟩
  | @app M Δ func arg a b hf he ihf ihe =>
      rw [Expr.analyze]
      refine Ends.bind ((ihf hs hscope hθ hM hΔ).and (analyze_confined func hs hscope)) ?_
      rintro funcTy σ₁ ⟨⟨θ₁, hθ₁, hold₁, hfunc⟩, h₁, hcov₁⟩
      have hscope₁ := hscope.mono h₁.size_le
      have hM₁ : M = θ₁.varsAt fixed := hM.trans (hold₁.varsAt_eq hscope).symm
      have hΔ₁ := hΔ.extend hscope h₁ hθ₁ hold₁ (.refl σ.store fixed)
      refine Ends.bind ((ihe h₁.wellFormed hscope₁ hθ₁ hM₁ hΔ₁).and
        (analyze_confined arg h₁.wellFormed hscope₁)) ?_
      rintro argTy σ₂ ⟨⟨θ₂, hθ₂, hold₂, harg⟩, h₂, hcov₂⟩
      refine Ends.lift_bind ?_
      obtain ⟨θ₃, hθ₃, hold₃, hres⟩ := hθ₂.fresh h₂.wellFormed p b
      have halike := Store.alike_fresh h₂.wellFormed p
      have hfn := Store.covers_fn.mpr ⟨hcov₂.mono halike.size_le, Store.covers_fresh p σ₂.store⟩
      have heq : (Ty.fn argTy (.var (p.fresh σ₂.store).1)).subst θ₃ = funcTy.subst θ₃ := by
        rw [Ty.subst_fn, Ty.subst_var, hres, hold₃.subst_eq hcov₂, harg,
          (hold₃.trans h₂.size_le hold₂).subst_eq hcov₁, hfunc]
      refine Ends.bind (unify_realizes (σ := { σ₂ with store := (p.fresh σ₂.store).2 })
        halike.wellFormed hfn (hcov₁.mono (h₂.toExtends.trans halike.extends).size_le) hθ₃ heq) ?_
      rintro _ σ₄ ⟨-, hθ₄⟩
      have hold := (hold₃.trans h₂.size_le hold₂).trans h₁.size_le hold₁
      exact Ends.pure ⟨θ₃, hθ₄, hold, (Ty.subst_var ..).trans hres⟩
  | @lam M Δ x body a b hb ih =>
      rw [Expr.analyze]
      refine Ends.lift_bind ?_
      have halike := Store.alike_fresh hs p
      have hin := hscope.enter p x
      obtain ⟨θ₁, hθ₁, hold₁, hv, hM₁, hΔ₁⟩ := hΔ.enter hs hscope hθ p x a
      rw [← hM] at hM₁
      refine Ends.bind (ih (σ := { σ with store := (p.fresh σ.store).2 }) halike.wellFormed hin hθ₁
        hM₁.symm hΔ₁) ?_
      rintro bodyTy σ₂ ⟨θ₂, hθ₂, hold₂, hbody⟩
      refine Ends.pure ⟨θ₂, hθ₂, hold₂.trans halike.size_le hold₁, ?_⟩
      rw [Ty.subst_fn, Ty.subst_var, hbody, hold₂ _ (hin.fixed List.mem_concat_self), hv]
  | @letRec M Δ x defn body a b hd hb ihd ihb =>
      rw [Expr.analyze]
      refine Ends.lift_bind ?_
      have halike := Store.alike_fresh hs p
      have hin := hscope.enter p x
      obtain ⟨θ₁, hθ₁, hold₁, hv, hM₁, hΔ₁⟩ := hΔ.enter hs hscope hθ p x a
      rw [← hM] at hM₁
      -- confined from the store before the `let` on, so that its own variable counts as new
      have h₀ := Store.Confined.refl hs fixed
      have hfixes := Store.Fixes.refl σ.store fixed
      refine Ends.bind (Ends.and (ihd (σ := { σ with store := (p.fresh σ.store).2 })
        halike.wellFormed hin hθ₁ hM₁.symm hΔ₁)
        (analyze_keeps defn (h₀.alike halike) hin (hfixes.bind (Nat.le_refl _)))) ?_
      rintro defnTy σ₂ ⟨⟨θ₂, hθ₂, hold₂, hdefn⟩, ⟨h₂, hext₂⟩, hown⟩
      have hvar := (h₀.owns_fresh p).extend hext₂
      have hv₂ : θ₂ (p.fresh σ.store).1 = a := (hold₂ _ (hin.fixed List.mem_concat_self)).trans hv
      have heq : (Ty.var (p.fresh σ.store).1).subst θ₂ = defnTy.subst θ₂ := by
        rw [Ty.subst_var, hv₂, hdefn]
      refine Ends.bind (unify_realizes h₂.wellFormed hvar.covers hown.covers hθ₂ heq) ?_
      rintro _ σ₃ ⟨hadds, hθ₃⟩
      have h₃ := h₂.adds hvar.stable hown.stable hadds
      have hold := hold₂.trans halike.size_le hold₁
      have hM₃ : M = θ₂.varsAt fixed := hM.trans (hold.varsAt_eq hscope).symm
      have hout := (hin.mono (hext₂.trans hadds.toExtends).size_le).leave
      have hΔ₃ := (hΔ.extend hscope h₃ hθ₃ hold hfixes).cons x fun u hu =>
        hθ₃.exists_of_instance (v := (p.fresh σ.store).1) (by rwa [← hM₃, hv₂])
      refine Ends.mono (ihb h₃.wellFormed hout hθ₃ hM₃ hΔ₃) ?_ fun _ _ h => h
      rintro t σ₄ ⟨θ₄, hθ₄, hold₄, ht⟩
      exact ⟨θ₄, hθ₄, hold₄.trans h₃.size_le hold, ht⟩

/-- An expression with a type is accepted, and what comes out has that type as an instance, in a way
that gives the earlier variables the values they have in the derivation. -/
theorem analyze_principal {e : Expr} {p : SupplyId} {Γ : Env} {fixed : List Var} {σ : Session}
    {θ : Subst} {t' : Ty} (hs : σ.store.WellFormed) (hscope : σ.store.Scopes Γ fixed)
    (hθ : σ.store.SolvedBy θ)
    (h : HasType (θ.varsAt (σ.store.varsOf fixed)) ((Γ.schemes σ.store fixed).subst θ) e t') :
    ∃ t σ', e.analyze p Γ fixed σ = .ok t σ'
      ∧ ∃ ρ : Subst, (σ'.store.resolve t).subst ρ = t'
        ∧ ∀ v : Var, v.index < σ.store.size → (σ'.store.resolve (.var v)).subst ρ = θ v := by
  have hM := (hθ.varsAt_eq fixed).symm
  obtain ⟨t, σ', hok, ρ, hρ, hold, ht⟩ :=
    Ends.exists_ok (analyze_realizes (p := p) h hs hscope hθ hM
      (Store.meets_schemes hs hθ Γ fixed)) fun _ _ h => h
  refine ⟨t, σ', hok, ρ, by rw [hρ.subst_resolve, ht], fun v hv => ?_⟩
  rw [hρ.subst_resolve, Ty.subst_var, hold v hv]

/-- Under `#0 := List #1` with `#0` fixed at `List Int`, `k : #1 -> #2` takes an `Int` to anything,
and so does `f`. -/
theorem analyze_principal_sample :
    let Γ := Env.empty.extend "k" (.fn (.var ⟨1⟩) (.var ⟨2⟩))
    let e := Expr.letRec "f" (.lam "x" (.app (.var "k") (.var "x"))) (.var "f")
    let int := Ty.nullary .int
    let θ : Subst := fun v => if v = ⟨0⟩ then .list int else if v = ⟨1⟩ then int else .var v
    Store.sample.WellFormed ∧ Store.sample.Scopes Γ [⟨0⟩] ∧ Store.sample.SolvedBy θ
      ∧ HasType (θ.varsAt (Store.sample.varsOf [⟨0⟩])) ((Γ.schemes Store.sample [⟨0⟩]).subst θ) e
          (.fn int (.nullary .bool))
      ∧ ∃ t σ', e.analyze 0 Γ [⟨0⟩] { store := Store.sample } = .ok t σ'
        ∧ ∃ ρ : Subst, (σ'.store.resolve t).subst ρ = .fn int (.nullary .bool)
          ∧ ∀ v : Var, v.index < Store.sample.size → (σ'.store.resolve (.var v)).subst ρ = θ v := by
  intro Γ e int θ
  have hk : Store.sample.Covers (.fn (.var ⟨1⟩) (.var ⟨2⟩)) :=
    Store.covers_fn.mpr ⟨Store.covers_var.mpr (by decide), Store.covers_var.mpr (by decide)⟩
  have hscope : Store.sample.Scopes Γ [⟨0⟩] := .extend (.empty (by decide)) hk "k"
  have hθ : Store.sample.SolvedBy θ := by
    intro v t h
    obtain ⟨rfl, rfl⟩ := Store.sample_link? h
    rfl
  -- the definition is typed with the result left open as `#3`
  have hderiv : HasType (θ.varsAt (Store.sample.varsOf [⟨0⟩]))
      ((Γ.schemes Store.sample [⟨0⟩]).subst θ) e (.fn int (.nullary .bool)) := by
    have hM : θ.varsAt (Store.sample.varsOf [⟨0⟩]) = [] := by decide
    rw [hM]
    have hkx : (Scheme.subst θ (.generalize (Store.sample.varsOf [⟨0⟩])
        (Store.sample.resolve (.fn (.var ⟨1⟩) (.var ⟨2⟩))))).Instance (.fn int (.var ⟨3⟩)) := by
      refine Scheme.instance_subst.mpr ⟨fun v => if v = ⟨2⟩ then .var ⟨3⟩ else θ v, ?_, ?_⟩
      · decide
      · decide
    have hf : (Scheme.generalize [] (.fn int (.var ⟨3⟩))).Instance (.fn int (.nullary .bool)) := by
      refine Scheme.instance_iff.mpr ⟨fun _ => .nullary .bool, ?_, ?_⟩
      · decide
      · decide
    exact .letRec (.lam (.app (.var rfl hkx) (.var rfl (Scheme.instance_mono.mpr rfl))))
      (.var rfl hf)
  exact ⟨Store.sample_wellFormed, hscope, hθ, hderiv,
    analyze_principal (σ := { store := Store.sample }) Store.sample_wellFormed hscope hθ hderiv⟩

end Overload
