import Mathlib.Data.List.Basic
import Overload.Types.Term

/-!
# Substitution

Terms under substitutions, links not involved. A substitution gives every variable a finite term.
What the rest of the theory asks of it is here: that it composes, that a term sees only the values
of its own variables (`subst_congr`) and shows all of them (`eq_of_subst_eq`), and how deep the
result is. `height_lt_of_mem_vars` is the occurs check in one line: a variable and a larger term
around it have no common value.
-/

namespace Overload

/-- A term for every variable. -/
abbrev Subst := Var → Ty

namespace Ty

/-! ## Induction -/

mutual

/-- An applied constructor may assume the statement for each of its arguments. -/
@[induction_eliminator]
theorem induction {motive : Ty → Prop} (var : ∀ v, motive (.var v))
    (con : ∀ c args, (∀ a ∈ args, motive a) → motive (.con c args)) : ∀ t, motive t
  | .var v => var v
  | .con c args => con c args (forall_mem_induction var con args)

theorem forall_mem_induction {motive : Ty → Prop} (var : ∀ v, motive (.var v))
    (con : ∀ c args, (∀ a ∈ args, motive a) → motive (.con c args)) :
    ∀ ts : List Ty, ∀ a ∈ ts, motive a
  | [] => fun _ h => (List.not_mem_nil h).elim
  | t :: ts => fun a h => by
      have ht := induction var con t
      have hts := forall_mem_induction var con ts
      rcases List.mem_cons.mp h with rfl | h
      · exact ht
      · exact hts a h

end

/-! ## Variables -/

mutual

/-- The variables that occur in a term, from left to right, each as often as it occurs. -/
def vars : Ty → List Var
  | .var v => [v]
  | .con _ args => varsAll args

def varsAll : List Ty → List Var
  | [] => []
  | t :: ts => t.vars ++ varsAll ts

end

theorem varsAll_eq (ts : List Ty) : varsAll ts = ts.flatMap vars := by
  induction ts with
  | nil => rfl
  | cons t ts ih => rw [varsAll, ih, List.flatMap_cons]

@[simp] theorem vars_var (v : Var) : (Ty.var v).vars = [v] := by rw [vars]

@[simp] theorem vars_con (c : TypeCon) (args : List Ty) :
    (Ty.con c args).vars = args.flatMap vars := by
  rw [vars, varsAll_eq]

@[simp] theorem vars_fn (a b : Ty) : (fn a b).vars = a.vars ++ b.vars := by simp [fn]

/-! ## Applying a substitution -/

mutual

def subst (θ : Subst) : Ty → Ty
  | .var v => θ v
  | .con c args => .con c (substAll θ args)

def substAll (θ : Subst) : List Ty → List Ty
  | [] => []
  | t :: ts => t.subst θ :: substAll θ ts

end

theorem substAll_eq (θ : Subst) (ts : List Ty) : substAll θ ts = ts.map (subst θ) := by
  induction ts with
  | nil => rfl
  | cons t ts ih => rw [substAll, ih, List.map_cons]

@[simp] theorem subst_var (θ : Subst) (v : Var) : (Ty.var v).subst θ = θ v := by rw [subst]

@[simp] theorem subst_con (θ : Subst) (c : TypeCon) (args : List Ty) :
    (Ty.con c args).subst θ = .con c (args.map (subst θ)) := by
  rw [subst, substAll_eq]

@[simp] theorem subst_fn (θ : Subst) (a b : Ty) :
    (fn a b).subst θ = fn (a.subst θ) (b.subst θ) := by simp [fn]

theorem subst_id (t : Ty) : t.subst .var = t := by
  induction t with
  | var v => simp
  | con c args ih =>
      rw [subst_con, List.map_congr_left ih, List.map_id']

theorem subst_subst (θ ψ : Subst) (t : Ty) :
    (t.subst θ).subst ψ = t.subst fun v => (θ v).subst ψ := by
  induction t with
  | var v => simp
  | con c args ih =>
      simp only [subst_con, List.map_map]
      exact congrArg (Ty.con c) (List.map_congr_left ih)

/-- Only the values of the variables of the term count. -/
theorem subst_congr {θ ψ : Subst} {t : Ty} (h : ∀ v ∈ t.vars, θ v = ψ v) :
    t.subst θ = t.subst ψ := by
  induction t with
  | var v => simpa using h v (by simp)
  | con c args ih =>
      simp only [subst_con]
      rw [List.map_congr_left fun a ha => ih a ha fun v hv =>
        h v (by rw [vars_con]; exact List.mem_flatMap.mpr ⟨a, ha, hv⟩)]

/-- And all of them do. -/
theorem eq_of_subst_eq {θ ψ : Subst} {t : Ty} (h : t.subst θ = t.subst ψ) :
    ∀ v ∈ t.vars, θ v = ψ v := by
  induction t with
  | var w =>
      intro v hv
      obtain rfl := List.mem_singleton.mp (by simpa using hv)
      simpa using h
  | con c args ih =>
      intro v hv
      rw [vars_con] at hv
      obtain ⟨a, ha, hva⟩ := List.mem_flatMap.mp hv
      simp only [subst_con, Ty.con.injEq, true_and] at h
      exact ih a ha (List.map_inj_left.mp h a ha) v hva

theorem subst_eq_self {θ : Subst} {t : Ty} (h : ∀ v ∈ t.vars, θ v = .var v) : t.subst θ = t :=
  (subst_congr h).trans (subst_id t)

theorem vars_subst (θ : Subst) (t : Ty) :
    (t.subst θ).vars = t.vars.flatMap fun v => (θ v).vars := by
  induction t with
  | var v => simp
  | con c args ih =>
      simp only [subst_con, vars_con, List.flatMap_map, List.flatMap_assoc]
      exact List.flatMap_congr ih

/-! ## Height -/

theorem heights_le_iff {ts : List Ty} {n : Nat} :
    heights ts ≤ n ↔ ∀ t ∈ ts, t.height ≤ n := by
  constructor
  · intro h t ht
    exact Nat.le_trans (height_le_heights ht) h
  · intro h
    induction ts with
    | nil => simp [heights]
    | cons t ts ih =>
        rw [heights]
        exact Nat.max_le.mpr
          ⟨h t (List.mem_cons_self ..), ih fun u hu => h u (List.mem_cons_of_mem _ hu)⟩

@[simp] theorem height_var (v : Var) : (Ty.var v).height = 0 := by rw [height]

theorem height_lt_of_mem {c : TypeCon} {args : List Ty} {a : Ty} (h : a ∈ args) :
    a.height < (Ty.con c args).height := by
  rw [height]
  exact Nat.lt_succ_of_le (height_le_heights h)

theorem height_subst_le {θ : Subst} {n : Nat} (h : ∀ v, (θ v).height ≤ n) (t : Ty) :
    (t.subst θ).height ≤ t.height + n := by
  induction t with
  | var v => simpa using h v
  | con c args ih =>
      have hargs : heights (args.map (subst θ)) ≤ heights args + n := by
        refine heights_le_iff.mpr fun u hu => ?_
        obtain ⟨a, ha, rfl⟩ := List.mem_map.mp hu
        exact Nat.le_trans (ih a ha) (Nat.add_le_add_right (height_le_heights ha) n)
      rw [subst_con, height, height]
      omega

theorem height_le_of_mem_vars (θ : Subst) {t : Ty} {v : Var} (h : v ∈ t.vars) :
    (θ v).height ≤ (t.subst θ).height := by
  induction t with
  | var w =>
      obtain rfl := List.mem_singleton.mp (by simpa using h)
      simp
  | con c args ih =>
      rw [vars_con] at h
      obtain ⟨a, ha, hva⟩ := List.mem_flatMap.mp h
      rw [subst_con]
      exact Nat.le_trans (ih a ha hva)
        (Nat.le_of_lt (height_lt_of_mem (List.mem_map_of_mem ha)))

/-- A variable is never as high as an applied constructor that contains it. -/
theorem height_lt_of_mem_vars (θ : Subst) {c : TypeCon} {args : List Ty} {v : Var}
    (h : v ∈ (Ty.con c args).vars) : (θ v).height < ((Ty.con c args).subst θ).height := by
  rw [vars_con] at h
  obtain ⟨a, ha, hva⟩ := List.mem_flatMap.mp h
  rw [subst_con]
  exact Nat.lt_of_le_of_lt (height_le_of_mem_vars θ hva) (height_lt_of_mem (List.mem_map_of_mem ha))

/-! ## Places in a term -/

/-- `Under t k u`: on some way down from the top of `t`, the term after `k` constructors is `u`. -/
inductive Under (t : Ty) : Nat → Ty → Prop
  | top : Under t 0 t
  | arg {k : Nat} {c : TypeCon} {args : List Ty} {a : Ty} :
      Under t k (.con c args) → a ∈ args → Under t (k + 1) a

theorem Under.subst {t u : Ty} {k : Nat} (h : Under t k u) (θ : Subst) :
    Under (t.subst θ) k (u.subst θ) := by
  induction h with
  | top => exact .top
  | arg _ ha ih =>
      rw [subst_con] at ih
      exact ih.arg (List.mem_map_of_mem ha)

theorem Under.height_le {t u : Ty} {k : Nat} (h : Under t k u) : k + u.height ≤ t.height := by
  induction h with
  | top => exact Nat.le_of_eq (Nat.zero_add _)
  | arg _ ha ih =>
      refine Nat.le_trans ?_ ih
      rw [Nat.add_assoc]
      exact Nat.add_le_add_left (Nat.one_add _ ▸ height_lt_of_mem ha) _

end Ty

end Overload
