import Overload.Inference.Expr
import Overload.Proofs.Observation

/-!
# The declarative system

Hindley-Milner typing with a monomorphic recursive `let`, without stores or links: `HasType M Δ e t`
says that `e` has type `t` where names have the schemes of `Δ` and the variables in `M` are
monomorphic. A parameter of a function is monomorphic inside its body, and so is the name of a `let`
inside its own definition; in the body of the `let` it is generalised over all variables outside
`M`.

A scheme is known by its instances. `instance_iff` and `instance_subst` describe those of a scheme
and of a scheme under a substitution; the second says that no variable is captured.
-/

namespace Overload

structure Scheme where
  quantified : List Var
  body : Ty

namespace Scheme

def mono (t : Ty) : Scheme := ⟨[], t⟩

/-- All variables but those in `M` are quantified. -/
def generalize (M : List Var) (t : Ty) : Scheme := ⟨t.vars.filter (· ∉ M), t⟩

def Instance (σ : Scheme) (u : Ty) : Prop :=
  ∃ θ : Subst, (∀ v, v ∉ σ.quantified → θ v = .var v) ∧ u = σ.body.subst θ

def free (σ : Scheme) : List Var := σ.body.vars.filter (· ∉ σ.quantified)

end Scheme

/-- Names with their schemes, innermost first. -/
abbrev Context := List (String × Scheme)

inductive HasType : List Var → Context → Expr → Ty → Prop
  | var {M : List Var} {Δ : Context} {x : String} {σ : Scheme} {t : Ty} :
      Δ.lookup x = some σ → σ.Instance t → HasType M Δ (.var x) t
  | app {M : List Var} {Δ : Context} {f e : Expr} {a b : Ty} :
      HasType M Δ f (.fn a b) → HasType M Δ e a → HasType M Δ (.app f e) b
  | lam {M : List Var} {Δ : Context} {x : String} {e : Expr} {a b : Ty} :
      HasType (M ++ a.vars) ((x, .mono a) :: Δ) e b → HasType M Δ (.lam x e) (.fn a b)
  | letRec {M : List Var} {Δ : Context} {x : String} {d e : Expr} {a b : Ty} :
      HasType (M ++ a.vars) ((x, .mono a) :: Δ) d a →
      HasType M ((x, .generalize M a) :: Δ) e b → HasType M Δ (.letRec x d e) b

/-! ## Instances -/

namespace Scheme

theorem mem_free {σ : Scheme} {v : Var} : v ∈ σ.free ↔ v ∈ σ.body.vars ∧ v ∉ σ.quantified := by
  simp [free]

theorem mem_free_generalize {M : List Var} {t : Ty} {v : Var} :
    v ∈ (generalize M t).free ↔ v ∈ t.vars ∧ v ∈ M := by
  simp only [mem_free, generalize, List.mem_filter, decide_eq_true_eq]
  constructor
  · rintro ⟨hv, h⟩
    exact ⟨hv, not_not.mp fun hM => h ⟨hv, hM⟩⟩
  · rintro ⟨hv, hM⟩
    exact ⟨hv, fun h => h.2 hM⟩

/-- Only the free variables have to stay as they are. -/
theorem instance_iff {σ : Scheme} {u : Ty} :
    σ.Instance u ↔ ∃ φ : Subst, (∀ v ∈ σ.free, φ v = .var v) ∧ u = σ.body.subst φ := by
  constructor
  · rintro ⟨θ, hθ, rfl⟩
    exact ⟨θ, fun v hv => hθ v (mem_free.mp hv).2, rfl⟩
  · rintro ⟨φ, hφ, rfl⟩
    refine ⟨fun v => if v ∈ σ.quantified then φ v else .var v, fun v hv => if_neg hv, ?_⟩
    refine Ty.subst_congr fun v hv => ?_
    by_cases hq : v ∈ σ.quantified
    · rw [if_pos hq]
    · rw [if_neg hq, hφ v (mem_free.mpr ⟨hv, hq⟩)]

theorem instance_mono {t u : Ty} : (mono t).Instance u ↔ u = t := by
  constructor
  · rintro ⟨θ, hθ, rfl⟩
    exact Ty.subst_eq_self fun v _ => hθ v List.not_mem_nil
  · rintro rfl
    exact ⟨.var, fun _ _ => rfl, (Ty.subst_id u).symm⟩

/-! ## Substitution under quantifiers -/

/-- `θ` on the free variables, while the quantified ones move to indices from `n` on. -/
def apart (σ : Scheme) (n : Nat) (θ : Subst) : Subst := fun v =>
  if v ∈ σ.quantified then .var ⟨n + v.index⟩ else θ v

def substApart (σ : Scheme) (n : Nat) (θ : Subst) : Scheme where
  quantified := σ.quantified.map fun v => ⟨n + v.index⟩
  body := σ.body.subst (σ.apart n θ)

/-- The first index after those of the variables. -/
def beyond : List Var → Nat
  | [] => 0
  | v :: vs => max (v.index + 1) (beyond vs)

theorem lt_beyond {vs : List Var} {v : Var} (h : v ∈ vs) : v.index < beyond vs := by
  induction vs with
  | nil => cases h
  | cons w vs ih =>
      rw [beyond]
      rcases List.mem_cons.mp h with rfl | h
      · omega
      · have := ih h
        omega

/-- Capture-avoiding: the quantified variables move beyond what `θ` puts in. -/
def subst (θ : Subst) (σ : Scheme) : Scheme :=
  σ.substApart (beyond (σ.free.flatMap fun v => (θ v).vars)) θ

theorem instance_substApart {σ : Scheme} {n : Nat} {θ : Subst} {u : Ty}
    (hn : ∀ v ∈ σ.free, ∀ w ∈ (θ v).vars, w.index < n) :
    (σ.substApart n θ).Instance u
      ↔ ∃ φ : Subst, (∀ v ∈ σ.free, φ v = θ v) ∧ u = σ.body.subst φ := by
  have hkept : ∀ w : Var, w.index < n → w ∉ (σ.substApart n θ).quantified := by
    intro w hw hmem
    obtain ⟨v, -, rfl⟩ := List.mem_map.mp hmem
    simp only at hw
    omega
  constructor
  · rintro ⟨ι, hι, rfl⟩
    refine ⟨fun v => (σ.apart n θ v).subst ι, fun v hv => ?_, Ty.subst_subst ..⟩
    show (σ.apart n θ v).subst ι = θ v
    rw [apart, if_neg (mem_free.mp hv).2]
    exact Ty.subst_eq_self fun w hw => hι w (hkept w (hn v hv w hw))
  · rintro ⟨φ, hφ, rfl⟩
    let ι : Subst := fun w =>
      if w ∈ (σ.substApart n θ).quantified then φ ⟨w.index - n⟩ else .var w
    refine ⟨ι, fun w hw => if_neg hw, ?_⟩
    rw [substApart, Ty.subst_subst]
    refine Ty.subst_congr fun v hv => ?_
    by_cases hq : v ∈ σ.quantified
    · have hmem : (⟨n + v.index⟩ : Var) ∈ (σ.substApart n θ).quantified :=
        List.mem_map.mpr ⟨v, hq, rfl⟩
      rw [apart, if_pos hq, Ty.subst_var]
      change φ v = if _ then _ else _
      rw [if_pos hmem, Nat.add_sub_cancel_left]
    · have hfree := mem_free.mpr ⟨hv, hq⟩
      rw [apart, if_neg hq, hφ v hfree]
      exact (Ty.subst_eq_self fun w hw => if_neg (hkept w (hn v hfree w hw))).symm

/-- The instances of a scheme under `θ` are the instances of its body with `θ` on the free
variables. -/
theorem instance_subst {σ : Scheme} {θ : Subst} {u : Ty} :
    (σ.subst θ).Instance u ↔ ∃ φ : Subst, (∀ v ∈ σ.free, φ v = θ v) ∧ u = σ.body.subst φ :=
  instance_substApart fun v hv _ hw => lt_beyond (List.mem_flatMap.mpr ⟨v, hv, hw⟩)

/-- Moved beyond `M`, the quantified variables are among those outside `M`. -/
theorem Instance.generalize {σ : Scheme} {n : Nat} {θ : Subst} {M : List Var} {u : Ty}
    (h : (σ.substApart n θ).Instance u) (hM : ∀ w ∈ M, w.index < n) :
    (Scheme.generalize M (σ.substApart n θ).body).Instance u := by
  obtain ⟨ι, hι, rfl⟩ := h
  refine instance_iff.mpr ⟨ι, fun w hw => hι w fun hmem => ?_, rfl⟩
  obtain ⟨v, -, rfl⟩ := List.mem_map.mp hmem
  have hlt := hM _ (mem_free_generalize.mp hw).2
  simp only at hlt
  omega

end Scheme

/-! ## The schemes of an environment -/

/-- An entry denotes its resolved type, generalised over all that the fixed variables do not stand
for. -/
def Env.schemes (s : Store) (fixed : List Var) (Γ : Env) : Context :=
  Γ.bindings.map fun p => (p.1, .generalize (s.varsOf fixed) (s.resolve p.2))

def Context.subst (θ : Subst) (Δ : Context) : Context := Δ.map fun p => (p.1, p.2.subst θ)

theorem lookup_map {β γ : Type} (g : β → γ) (x : String) (l : List (String × β)) :
    (l.map fun p => (p.1, g p.2)).lookup x = (l.lookup x).map g := by
  induction l with
  | nil => rfl
  | cons p l ih =>
      rw [List.map_cons, List.lookup_cons, List.lookup_cons]
      cases x == p.1 with
      | true => rfl
      | false => exact ih

theorem Env.lookup_schemes (s : Store) (fixed : List Var) (Γ : Env) (x : String) :
    (Γ.schemes s fixed).lookup x
      = (Γ.get? x).map fun t => .generalize (s.varsOf fixed) (s.resolve t) :=
  lookup_map (fun t => Scheme.generalize (s.varsOf fixed) (s.resolve t)) x Γ.bindings

theorem Context.lookup_subst (θ : Subst) (Δ : Context) (x : String) :
    (Δ.subst θ).lookup x = (Δ.lookup x).map (Scheme.subst θ) :=
  lookup_map _ x Δ

end Overload
