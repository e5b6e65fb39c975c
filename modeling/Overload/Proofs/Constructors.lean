import Mathlib.Data.Set.Defs
import Overload.Proofs.Unification

/-!
# Where constructors come from

Unification makes up no constructors: those that the variables of a store stand for after some
equations have been added were in the store or in the equations before (`Adds.reuses`). This
follows from the solutions alone. If the constructors of the store and of the equations are all in
`C`, then a solution stays one when everything under a constructor outside of `C` is cut off, and
the most general solution has no such constructor.
-/

namespace Overload

namespace Ty

mutual

/-- The constructors of a term, each as often as it occurs. -/
def constructors : Ty → List TypeCon
  | .var _ => []
  | .con c args => c :: constructorsAll args

def constructorsAll : List Ty → List TypeCon
  | [] => []
  | t :: ts => constructors t ++ constructorsAll ts

end

theorem constructorsAll_eq (ts : List Ty) : constructorsAll ts = ts.flatMap constructors := by
  induction ts with
  | nil => rfl
  | cons t ts ih => rw [constructorsAll, ih, List.flatMap_cons]

/-- All constructors of the term are in `C`. -/
def Over (C : Set TypeCon) (t : Ty) : Prop := ∀ c ∈ t.constructors, c ∈ C

instance (C : Set TypeCon) [DecidablePred (· ∈ C)] (t : Ty) : Decidable (t.Over C) :=
  inferInstanceAs (Decidable (∀ c ∈ t.constructors, c ∈ C))

variable {C : Set TypeCon}

theorem over_var (v : Var) : (Ty.var v).Over C := by simp [Over, constructors]

theorem over_con {c : TypeCon} {args : List Ty} :
    (Ty.con c args).Over C ↔ c ∈ C ∧ ∀ a ∈ args, a.Over C := by
  rw [Over, constructors, constructorsAll_eq, List.forall_mem_cons, List.forall_mem_flatMap]
  rfl

theorem Over.subst {θ : Subst} {t : Ty} (h : t.Over C) (hθ : ∀ v, (θ v).Over C) :
    (t.subst θ).Over C := by
  induction t with
  | var v => simpa using hθ v
  | con c args ih =>
      obtain ⟨hc, hargs⟩ := over_con.mp h
      rw [subst_con, over_con]
      refine ⟨hc, fun b hb => ?_⟩
      obtain ⟨a, ha, rfl⟩ := List.mem_map.mp hb
      exact ih a ha (hargs a ha)

theorem Over.of_subst {θ : Subst} {t : Ty} (h : (t.subst θ).Over C) : t.Over C := by
  induction t with
  | var v => exact over_var v
  | con c args ih =>
      rw [subst_con, over_con] at h
      exact over_con.mpr ⟨h.1, fun a ha => ih a ha (h.2 _ (List.mem_map_of_mem ha))⟩

/-! ## Cutting off -/

mutual

/-- The term with a variable in place of everything under a constructor outside of `C`. -/
def cut (C : Set TypeCon) [DecidablePred (· ∈ C)] : Ty → Ty
  | .var v => .var v
  | .con c args => if c ∈ C then .con c (cutAll C args) else .var default

def cutAll (C : Set TypeCon) [DecidablePred (· ∈ C)] : List Ty → List Ty
  | [] => []
  | t :: ts => cut C t :: cutAll C ts

end

variable [DecidablePred (· ∈ C)]

theorem cutAll_eq (ts : List Ty) : cutAll C ts = ts.map (cut C) := by
  induction ts with
  | nil => rw [cutAll, List.map_nil]
  | cons t ts ih => rw [cutAll, ih, List.map_cons]

theorem cut_con_of_mem {c : TypeCon} (hc : c ∈ C) (args : List Ty) :
    (Ty.con c args).cut C = .con c (args.map (cut C)) := by
  rw [cut, if_pos hc, cutAll_eq]

theorem Over.cut_subst {t : Ty} (h : t.Over C) (θ : Subst) :
    (t.subst θ).cut C = t.subst fun v => (θ v).cut C := by
  induction t with
  | var v => simp
  | con c args ih =>
      obtain ⟨hc, hargs⟩ := over_con.mp h
      rw [subst_con, subst_con, cut_con_of_mem hc, List.map_map]
      exact congrArg _ (List.map_congr_left fun a ha => ih a ha (hargs a ha))

/-- A term that is cut down to an instance of itself has not been cut at all. -/
theorem over_of_cut_eq {t : Ty} {θ : Subst} (h : t.cut C = t.subst θ) : t.Over C := by
  induction t with
  | var v => exact over_var v
  | con c args ih =>
      by_cases hc : c ∈ C
      · rw [cut_con_of_mem hc, subst_con] at h
        exact over_con.mpr ⟨hc, fun a ha => ih a ha (List.map_inj_left.mp (Ty.con.inj h).2 a ha)⟩
      · rw [cut, if_neg hc, subst_con] at h
        cases h

end Ty

namespace Store

/-- All constructors that the variables stand for are in `C`. -/
def Over (s : Store) (C : Set TypeCon) : Prop := ∀ i < s.size, (s.resolve (.var ⟨i⟩)).Over C

instance (s : Store) (C : Set TypeCon) [DecidablePred (· ∈ C)] : Decidable (s.Over C) :=
  inferInstanceAs (Decidable (∀ i < s.size, (s.resolve (.var ⟨i⟩)).Over C))

theorem Over.resolve_var {s : Store} {C : Set TypeCon} (h : s.Over C) (v : Var) :
    (s.resolve (.var v)).Over C := by
  by_cases hv : v.index < s.size
  · exact h v.index hv
  · rw [resolve_of_unbound (link?_of_size_le (Nat.not_lt.mp hv))]
    exact Ty.over_var v

theorem Over.resolve {s : Store} {C : Set TypeCon} (h : s.Over C) {t : Ty} (ht : t.Over C) :
    (s.resolve t).Over C := by
  rw [resolve_eq_subst]
  exact ht.subst h.resolve_var

theorem Over.of_resolve {s : Store} {C : Set TypeCon} {t : Ty} (h : (s.resolve t).Over C) :
    t.Over C := by
  rw [resolve_eq_subst] at h
  exact h.of_subst

/-- The constructors of `s'` are those of `s` and of the equations. -/
def Reuses (s : Store) (eqs : List (Ty × Ty)) (s' : Store) : Prop :=
  ∀ C, s.Over C → (∀ p ∈ eqs, p.1.Over C ∧ p.2.Over C) → s'.Over C

theorem Quiet.reuses {s s' : Store} (h : s.Quiet s') (hs : s.WellFormed) (eqs : List (Ty × Ty)) :
    s.Reuses eqs s' := by
  intro C hC _ i _
  rw [h.toAlike.resolve_eq hs]
  exact hC.resolve_var ⟨i⟩

theorem Reuses.trans {s₁ s₂ s₃ : Store} {es fs : List (Ty × Ty)} (h : s₁.Reuses es s₂)
    (h' : s₂.Reuses fs s₃) : s₁.Reuses (es ++ fs) s₃ := by
  intro C hC heqs
  refine h' C (h C hC fun p hp => ?_) fun p hp => ?_
  · exact heqs p (List.mem_append_left _ hp)
  · exact heqs p (List.mem_append_right _ hp)

theorem SolvedBy.cut {s : Store} {C : Set TypeCon} [DecidablePred (· ∈ C)] {θ : Subst}
    (hθ : s.SolvedBy θ) (hs : s.WellFormed) (hC : s.Over C) : s.SolvedBy fun v => (θ v).cut C := by
  intro v t hl
  have ht : t.Over C := Over.of_resolve (resolve_of_link hs.acyclic hl ▸ hC.resolve_var v)
  exact (congrArg (Ty.cut C) (hθ v t hl)).trans (ht.cut_subst θ)

theorem Adds.reuses {s s' : Store} {eqs : List (Ty × Ty)} (h : s.Adds eqs s')
    (hs : s.WellFormed) : s.Reuses eqs s' := by
  classical
  intro C hC heqs i _
  obtain ⟨hθ, hsolves⟩ := (h.solved_iff _).mp (solvedBy_resolve h.wellFormed.acyclic)
  -- the solution that the store shows is still one after the cut, so it is an instance of itself
  have hcut : s'.SolvedBy fun v => (s'.resolve (.var v)).cut C := by
    refine (h.solved_iff _).mpr ⟨hθ.cut hs hC, fun p hp => ?_⟩
    obtain ⟨hl, hr⟩ := heqs p hp
    rw [← hl.cut_subst, ← hr.cut_subst, hsolves p hp]
  have hself := hcut.subst_resolve (.var ⟨i⟩)
  rw [Ty.subst_var] at hself
  exact Ty.over_of_cut_eq hself.symm

end Store

end Overload
