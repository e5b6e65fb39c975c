import Mathlib.Data.List.Forall2
import Overload.Proofs.Principality
import Overload.Proofs.ValueTypes

/-!
# Fitting arguments to an opened type

A function is applied to arguments of known types by analysing `f a₀ … aₖ` in an environment that
has a name for each of them (`Opened.applyTo`). Seen from outside, what the analysis does is a
matter of values: the arguments are generic, so each may take any value that it can take in the
store, while the variables of the opened type are fixed and have one value throughout. The type of
the application is what the opened type leaves when these values are taken off, and every such
choice of values is found (`applyTo_leaves`, `applyTo_realizes`).

That no two names of the environment coincide is part of this: an argument bound under the name of
another one would be typed in its place.
-/

namespace Overload

namespace Store

/-! ## Names and their values -/

/-- `u` is a value that `t` can take with the fixed variables as in `θ`. -/
def Takes (s : Store) (fixed : List Var) (θ : Subst) (t u : Ty) : Prop :=
  ∃ φ, s.SolvedBy φ ∧ (∀ f ∈ fixed, φ f = θ f) ∧ t.subst φ = u

theorem takes_of_fixed {s : Store} {fixed : List Var} {θ : Subst} (hθ : s.SolvedBy θ) {t : Ty}
    (ht : ∀ w ∈ t.vars, w ∈ fixed) {u : Ty} : s.Takes fixed θ t u ↔ t.subst θ = u := by
  constructor
  · rintro ⟨φ, -, hag, rfl⟩
    exact (Ty.subst_congr fun w hw => hag w (ht w hw)).symm
  · rintro rfl
    exact ⟨θ, hθ, fun _ _ => rfl, rfl⟩

/-- The converse of `meets_schemes`. -/
theorem offers_schemes {s : Store} {θ : Subst} (hθ : s.SolvedBy θ) (Γ : Env) (fixed : List Var) :
    s.Offers fixed θ Γ ((Γ.schemes s fixed).subst θ) := by
  intro x t hx
  refine ⟨_, by rw [Context.lookup_subst, Env.lookup_schemes, hx]; rfl, fun φ hφ hag => ?_⟩
  refine Scheme.instance_subst.mpr ⟨φ, fun v hv => ?_, (hφ.subst_resolve t).symm⟩
  exact hθ.agree_varsOf hφ hag v (Scheme.mem_free_generalize.mp hv).2

/-- In the schemes of an environment a name has the values that its entry can take. -/
theorem hasType_name_iff {s : Store} (hs : s.WellFormed) {θ : Subst} (hθ : s.SolvedBy θ) {Γ : Env}
    {fixed M : List Var} {x : String} {t u : Ty} (hx : Γ.get? x = some t) :
    HasType M ((Γ.schemes s fixed).subst θ) (.var x) u ↔ s.Takes fixed θ t u := by
  constructor
  · intro h
    cases h with
    | var hlookup hinst =>
        obtain ⟨t', ht', hmeets⟩ := meets_schemes hs hθ Γ fixed x _ hlookup
        obtain rfl := Option.some.inj (hx.symm.trans ht')
        exact hmeets u hinst
  · rintro ⟨φ, hφ, hag, rfl⟩
    obtain ⟨sch, hsch, hinst⟩ := offers_schemes hθ Γ fixed x t hx
    exact .var hsch (hinst φ hφ hag)

theorem hasType_names_iff {s : Store} (hs : s.WellFormed) {θ : Subst} (hθ : s.SolvedBy θ) {Γ : Env}
    {fixed M : List Var} {xs : List String} {ts us : List Ty}
    (h : List.Forall₂ (fun x t => Γ.get? x = some t) xs ts) :
    List.Forall₂ (fun x u => HasType M ((Γ.schemes s fixed).subst θ) (.var x) u) xs us
      ↔ List.Forall₂ (s.Takes fixed θ) ts us := by
  induction h generalizing us with
  | nil => simp
  | cons hx _ ih =>
      cases us with
      | nil => simp
      | cons u us => rw [List.forall₂_cons, List.forall₂_cons, ih, hasType_name_iff hs hθ hx]

end Store

/-! ## Applications to names -/

/-- The application to several names in turn. -/
def Expr.apps (e : Expr) (xs : List String) : Expr := xs.foldl (fun e x => .app e (.var x)) e

theorem hasType_apps {M : List Var} {Δ : Context} {e : Expr} {xs : List String} {t : Ty} :
    HasType M Δ (e.apps xs) t
      ↔ ∃ us, HasType M Δ e (.chain us t)
          ∧ List.Forall₂ (fun x u => HasType M Δ (.var x) u) xs us := by
  induction xs generalizing e with
  | nil => simp [Expr.apps]
  | cons x xs ih =>
      refine (ih (e := .app e (.var x))).trans ⟨?_, ?_⟩
      · rintro ⟨us, happ, hxs⟩
        cases happ with
        | app hfunc harg => exact ⟨_ :: us, hfunc, .cons harg hxs⟩
      · rintro ⟨_, hfunc, hxs⟩
        cases hxs with
        | cons harg hxs => exact ⟨_, .app hfunc harg, hxs⟩

theorem slot_inj {name : String} {i j : Nat} (h : s!"{name}#{i}" = s!"{name}#{j}") : i = j := by
  have hrepr : toString i = toString j := (String.append_right_inj _).mp h
  rw [Nat.toString_eq_ofList_toDigits, Nat.toString_eq_ofList_toDigits] at hrepr
  rw [← Nat.ofDigitChars_ten_toDigits (n := i), String.ofList_injective hrepr,
    Nat.ofDigitChars_ten_toDigits]

/-- The name of the function is not that of an argument: a number has no letter. -/
theorem slot_ne_func (name : String) (i : Nat) : s!"{name}#fn" ≠ s!"{name}#{i}" := by
  intro h
  have h : name ++ "#" ++ "fn" = name ++ "#" ++ toString i := String.append_assoc.trans h
  have hdigits : ['f', 'n'] = Nat.toDigits 10 i := by
    refine String.ofList_injective ?_
    rw [← Nat.toString_eq_ofList_toDigits]
    exact (String.append_right_inj _).mp h
  have hf : 'f' ∈ Nat.toDigits 10 i := hdigits ▸ List.mem_cons_self
  exact absurd (Nat.isDigit_of_mem_toDigits (by decide) (by decide) hf) (by decide)

/-- The environment and the expression that arguments are put into: an application to names that
stand for the arguments, where all other names are as before. -/
theorem slots_spec (slot : Nat → String) (hslot : ∀ i j, slot i = slot j → i = j)
    (args : List Ty) (k : Nat) (Γ : Env) (e : Expr) :
    let r := (args.zipIdx k).foldl
      (fun (Γ, e) (t, i) => (Γ.extend (slot i) t, .app e (.var (slot i)))) (Γ, e)
    ∃ xs, r.2 = e.apps xs ∧ List.Forall₂ (fun x t => r.1.get? x = some t) xs args
      ∧ ∀ x, (∀ i, k ≤ i → x ≠ slot i) → r.1.get? x = Γ.get? x := by
  induction args generalizing k Γ e with
  | nil => exact ⟨[], rfl, .nil, fun _ _ => rfl⟩
  | cons t args ih =>
      obtain ⟨xs, hexpr, hnames, hrest⟩ := ih (k + 1) (Γ.extend (slot k) t) (.app e (.var (slot k)))
      refine ⟨slot k :: xs, hexpr, .cons ?_ hnames, fun x hx => ?_⟩
      · refine (hrest (slot k) fun i hi heq => ?_).trans (Env.get?_extend_self ..)
        have hik := hslot k i heq
        omega
      · refine (hrest x fun i hi => hx i (by omega)).trans ?_
        exact Env.get?_extend_of_ne Γ t (hx k (Nat.le_refl k))

/-! ## Errors -/

/-- An analysis never runs past a bound. -/
theorem analyze_not_cyclic (e : Expr) {p : SupplyId} {Γ : Env} {fixed : List Var} {σ : Session}
    (hs : σ.store.WellFormed) (hscope : σ.store.Scopes Γ fixed) :
    Ends (e.analyze p Γ fixed) σ (fun _ _ => True) fun err _ => err ≠ .cyclic := by
  induction e generalizing Γ fixed σ with
  | var name =>
      rw [Expr.analyze]
      cases hx : Γ.get? name with
      | none => exact Ends.throw TypeError.noConfusion
      | some t => exact Ends.lift trivial
  | app func arg ihf iha =>
      rw [Expr.analyze]
      refine Ends.bind ((ihf hs hscope).and (analyze_confined func hs hscope)) ?_
      rintro funcTy σ₁ ⟨-, h₁, hcov₁⟩
      have hscope₁ := hscope.mono h₁.size_le
      refine Ends.bind ((iha h₁.wellFormed hscope₁).and
        (analyze_confined arg h₁.wellFormed hscope₁)) ?_
      rintro argTy σ₂ ⟨-, h₂, hcov₂⟩
      refine Ends.lift_bind ?_
      have halike := Store.alike_fresh h₂.wellFormed p
      have hfn := Store.covers_fn.mpr ⟨hcov₂.mono halike.size_le, Store.covers_fresh p σ₂.store⟩
      have hunify := unify_adds (σ := { σ₂ with store := (p.fresh σ₂.store).2 })
        halike.wellFormed hfn (hcov₁.mono (h₂.toExtends.trans halike.extends).size_le)
      exact Ends.bind hunify fun _ _ _ => trivial
  | lam param body ih =>
      rw [Expr.analyze]
      refine Ends.lift_bind ?_
      have hwf := (Store.alike_fresh hs p).wellFormed
      exact Ends.bind (ih (σ := { σ with store := (p.fresh σ.store).2 }) hwf
        (hscope.enter p param)) fun _ _ _ => trivial
  | letRec name defn body ihd ihb =>
      rw [Expr.analyze]
      refine Ends.lift_bind ?_
      have hwf := (Store.alike_fresh hs p).wellFormed
      have hin := hscope.enter p name
      refine Ends.bind ((ihd (σ := { σ with store := (p.fresh σ.store).2 }) hwf hin).and
        (analyze_confined defn hwf hin)) ?_
      rintro defnTy σ₁ ⟨-, h₁, hcov₁⟩
      have hin₁ := hin.mono h₁.size_le
      have hunify := unify_adds h₁.wellFormed (hin₁.env (Env.get?_extend_self ..)) hcov₁
      refine Ends.bind hunify fun _ σ₂ h₂ => ?_
      exact ihb h₂.wellFormed (hin₁.mono h₂.size_le).leave

/-! ## The application -/

/-- What an opened type has to satisfy for arguments to be fitted to it. -/
structure Opened.Ready (s : Store) (o : Opened) : Prop where
  covers : s.Covers o.ty
  fixed_lt : ∀ f ∈ o.fixed, f.index < s.size
  fixes : ∀ w ∈ o.ty.vars, w ∈ o.fixed

theorem Opened.Ready.mono {s s' : Store} {o : Opened} (h : o.Ready s) (hle : s.size ≤ s'.size) :
    o.Ready s' where
  covers := h.covers.mono hle
  fixed_lt f hf := Nat.lt_of_lt_of_le (h.fixed_lt f hf) hle
  fixes := h.fixes

/-- The analysed expression takes the arguments off the opened type one by one. -/
theorem Opened.applyTo_eq (o : Opened) (p : SupplyId) (name : String) {args : List Ty} {s : Store}
    (ho : o.Ready s) (hargs : ∀ t ∈ args, s.Covers t) :
    ∃ Γ e, o.applyTo p name args = (do
        let inferred ← e.analyze p Γ o.fixed
        let ret ← p.freshTy
        unify inferred ret
        return ret)
      ∧ s.Scopes Γ o.fixed
      ∧ ∀ θ t, s.WellFormed → s.SolvedBy θ →
          (HasType (θ.varsAt o.fixed) ((Γ.schemes s o.fixed).subst θ) e t
            ↔ ∃ us, List.Forall₂ (s.Takes o.fixed θ) args us ∧ o.ty.subst θ = .chain us t) := by
  obtain ⟨xs, hexpr, hnames, hrest⟩ := slots_spec (fun i => s!"{name}#{i}")
    (fun i j => slot_inj) args 0 (Env.empty.extend s!"{name}#fn" o.ty) (.var s!"{name}#fn")
  have hfunc := (hrest s!"{name}#fn" fun i _ => slot_ne_func name i).trans
    (Env.get?_extend_self ..)
  refine ⟨_, _, rfl, ?_, fun θ t hs hθ => ?_⟩
  · exact Store.Scopes.slots (fun i => s!"{name}#{i}") args.zipIdx
      (fun q hq => hargs q.1 (List.fst_mem_of_mem_zipIdx hq)) (.var s!"{name}#fn")
      ((Store.Scopes.empty ho.fixed_lt).extend ho.covers s!"{name}#fn")
  · rw [hexpr, hasType_apps]
    refine exists_congr fun us => ?_
    rw [Store.hasType_name_iff hs hθ hfunc, Store.hasType_names_iff hs hθ hnames,
      Store.takes_of_fixed hθ ho.fixes, and_comm]

theorem applyTo_leaves {o : Opened} {p : SupplyId} {name : String} {args : List Ty} {σ : Session}
    (hs : σ.store.WellFormed) (ho : o.Ready σ.store) (hargs : ∀ t ∈ args, σ.store.Covers t) :
    Ends (o.applyTo p name args) σ
      (fun t σ' => ∀ θ, σ'.store.SolvedBy θ →
        ∃ us, List.Forall₂ (σ.store.Takes o.fixed θ) args us ∧ o.ty.subst θ = .chain us (t.subst θ))
      fun err _ => err ≠ .cyclic := by
  obtain ⟨Γ, e, heq, hscope, htype⟩ := o.applyTo_eq p name ho hargs
  rw [heq]
  refine Ends.bind ((analyze_not_cyclic e hs hscope).and
    ((analyze_hasType e hs hscope).and (analyze_confined e hs hscope))) ?_
  rintro inferred σ₁ ⟨-, hinferred, h₁, hcov₁⟩
  refine Ends.lift_bind ?_
  have halike := Store.alike_fresh h₁.wellFormed p
  have hunify := unify_adds (σ := { σ₁ with store := (p.fresh σ₁.store).2 }) halike.wellFormed
    (hcov₁.mono halike.size_le) (Store.covers_fresh p σ₁.store)
  refine Ends.bind hunify fun _ σ₂ h₂ => ?_
  refine Ends.pure fun θ hθ => ?_
  obtain ⟨hθ₂, hret⟩ := (h₂.solved_iff θ).mp hθ
  have hθ₁ := (halike.solved_iff θ).mp hθ₂
  have hθ₀ := h₁.solved θ hθ₁
  have hderiv := hinferred θ _ hθ₁ (Store.offers_schemes hθ₀ Γ o.fixed)
  rw [solves_singleton.mp hret] at hderiv
  exact (htype θ _ hs hθ₀).mp hderiv

theorem applyTo_realizes {o : Opened} {p : SupplyId} {name : String} {args us : List Ty} {t : Ty}
    {σ : Session} {θ : Subst} (hs : σ.store.WellFormed) (ho : o.Ready σ.store)
    (hargs : ∀ t ∈ args, σ.store.Covers t) (hθ : σ.store.SolvedBy θ)
    (hus : List.Forall₂ (σ.store.Takes o.fixed θ) args us) (heq : o.ty.subst θ = .chain us t) :
    Realizes (o.applyTo p name args) σ θ t := by
  obtain ⟨Γ, e, hrun, hscope, htype⟩ := o.applyTo_eq p name ho hargs
  have hderiv := (htype θ t hs hθ).mpr ⟨us, hus, heq⟩
  rw [hrun]
  refine Ends.bind ((analyze_realizes (p := p) hderiv hs hscope hθ rfl
    (Store.meets_schemes hs hθ Γ o.fixed)).and (analyze_confined e hs hscope)) ?_
  rintro inferred σ₁ ⟨⟨θ₁, hθ₁, hold₁, hinferred⟩, h₁, hcov₁⟩
  refine Ends.lift_bind ?_
  obtain ⟨θ₂, hθ₂, hold₂, hret⟩ := hθ₁.fresh h₁.wellFormed p t
  have halike := Store.alike_fresh h₁.wellFormed p
  have hsame : inferred.subst θ₂ = (Ty.var (p.fresh σ₁.store).1).subst θ₂ := by
    rw [Ty.subst_var, hret, hold₂.subst_eq hcov₁, hinferred]
  refine Ends.bind (unify_realizes (σ := { σ₁ with store := (p.fresh σ₁.store).2 })
    halike.wellFormed (hcov₁.mono halike.size_le) (Store.covers_fresh p σ₁.store) hθ₂ hsame) ?_
  rintro _ σ₂ ⟨-, hθ₃⟩
  exact Ends.pure ⟨θ₂, hθ₃, hold₂.trans h₁.size_le hold₁, (Ty.subst_var ..).trans hret⟩

end Overload
