import Overload.Proofs.Analysis

/-!
# What a confined computation leaves alone

A confined change says nothing about the old variables that the fixed ones do not show: none of
them gets bound (`Confined.unbound_of_not_mem`). With nothing fixed every old term resolves as
before (`Confined.resolve_eq`), and a type that the change is about shows new variables only
(`Confined.new_of_mem`). This is not visible from the equations one by one. The argument is by
probing: if a change said something about an old unbound variable, it would not admit two solutions
that differ at this variable only.

`Confined.trans` puts two changes together. The second one may be confined to any variables whose
values are not decided outside the confines of the first.
-/

namespace Overload

theorem Subst.patch_patch {n k : Nat} (hle : n ≤ k) (φ θ : Subst) :
    patch k (patch n φ θ) θ = patch n φ θ := by
  funext v
  by_cases hv : v.index < k
  · exact patch_of_lt hv
  · have hv := Nat.not_lt.mp hv
    rw [patch_of_le hv, patch_of_le (Nat.le_trans hle hv)]

namespace Store

theorem Confined.trans {s₁ s₂ s₃ : Store} {fixed later : List Var} (h : s₁.Confined fixed s₂)
    (h' : s₂.Confined later s₃) (hlater : ∀ f ∈ later, s₁.Stable fixed s₂ (.var f)) :
    s₁.Confined fixed s₃ where
  toEvolves := h.toEvolves.trans h'.toEvolves
  solved_patch {θ φ} hθ hφ hag := by
    have hθ₂ := h'.solved _ hθ
    have hφ₃ := h'.solved_patch hθ (h.solved_patch hθ₂ hφ hag) fun f hf => by
      simpa using hlater f hf θ φ hθ₂ hφ hag
    rwa [Subst.patch_patch h.size_le] at hφ₃

theorem Stable.trans {s₁ s₂ s₃ : Store} {fixed later : List Var} {t : Ty}
    (h : s₁.Confined fixed s₂) (ht : s₂.Stable later s₃ t) (hext : s₂.Extends s₃)
    (hlater : ∀ f ∈ later, s₁.Stable fixed s₂ (.var f)) : s₁.Stable fixed s₃ t := by
  intro θ φ hθ hφ hag
  have hθ₂ := hext.solved _ hθ
  have heq := ht θ _ hθ (h.solved_patch hθ₂ hφ hag) fun f hf => by
    simpa using hlater f hf θ φ hθ₂ hφ hag
  rwa [Subst.patch_patch h.size_le] at heq

/-! ## Probing one variable -/

/-- As resolved in `s'`, except that the old variables have `a` for `w`. -/
def probe (s s' : Store) (w : Var) (a : Ty) : Subst :=
  .patch s.size
    (fun v => (s.resolve (.var v)).subst fun u => if u = w then a else s'.resolve (.var u))
    fun v => s'.resolve (.var v)

theorem probe_of_ne {s s' : Store} {v w : Var} (hunbound : s.link? v = none) (hne : v ≠ w)
    (a : Ty) : s.probe s' w a v = s'.resolve (.var v) := by
  by_cases hv : v.index < s.size
  · rw [probe, Subst.patch_of_lt hv, resolve_of_unbound hunbound, Ty.subst_var, if_neg hne]
  · exact Subst.patch_of_le (Nat.not_lt.mp hv)

theorem probe_self {s s' : Store} {v : Var} (hv : v.index < s.size) (hunbound : s.link? v = none)
    (a : Ty) : s.probe s' v a v = a := by
  rw [probe, Subst.patch_of_lt hv, resolve_of_unbound hunbound, Ty.subst_var, if_pos rfl]

/-- The probe is an admissible value where the fixed variables do not show it. -/
theorem Extends.probe_agree {s s' : Store} {fixed : List Var} {w : Var} (h : s.Extends s')
    (hw : w ∉ s.varsOf fixed) (a : Ty) :
    ∀ f ∈ fixed, (s.resolve (.var f)).subst (fun u => if u = w then a else s'.resolve (.var u))
      = s'.resolve (.var f) := by
  intro f hf
  have hsame : ∀ u ∈ (s.resolve (.var f)).vars,
      (if u = w then a else s'.resolve (.var u)) = s'.resolve (.var u) := by
    intro u hu
    have hne : u ≠ w := by
      rintro rfl
      exact hw (List.mem_flatMap.mpr ⟨f, hf, hu⟩)
    rw [if_neg hne]
  rw [Ty.subst_congr hsame, ← resolve_eq_subst, h.resolve_resolve]

theorem Confined.solvedBy_probe {s s' : Store} {fixed : List Var} (h : s.Confined fixed s')
    (hs : s.WellFormed) {w : Var} (hw : w ∉ s.varsOf fixed) (a : Ty) :
    s'.SolvedBy (s.probe s' w a) :=
  h.solved_patch (solvedBy_resolve h.wellFormed.acyclic) (solvedBy_resolve_comp hs.acyclic _)
    (h.toExtends.probe_agree hw a)

/-- What is unbound after the change was unbound before. -/
theorem Confined.unbound_of_mem {s s' : Store} {fixed : List Var} (h : s.Confined fixed s') {t : Ty}
    {w : Var} (hw : w ∈ (s'.resolve t).vars) : s.link? w = none :=
  h.bound w (unlinked_resolve h.wellFormed.acyclic t w hw)

/-- A change binds no old variable but those that the fixed ones show. -/
theorem Confined.unbound_of_not_mem {s s' : Store} {fixed : List Var} (h : s.Confined fixed s')
    (hs : s.WellFormed) {v : Var} (hv : v.index < s.size) (hunbound : s.link? v = none)
    (hfixed : v ∉ s.varsOf fixed) : s'.link? v = none := by
  by_contra hbound
  -- a probe at `v` changes no variable that `v` stands for, so it could not change `v` either
  have hsame : ∀ w ∈ (s'.resolve (.var v)).vars,
      s.probe s' v (.nullary .unit) w = s.probe s' v (.nullary .bool) w := by
    intro w hw
    have hne : w ≠ v := by
      rintro rfl
      exact hbound (unlinked_resolve h.wellFormed.acyclic _ w hw)
    have hw' := h.unbound_of_mem hw
    rw [probe_of_ne hw' hne, probe_of_ne hw' hne]
  have hprobe := fun a => h.solvedBy_probe hs hfixed a
  have heq := ((hprobe _).subst_eq_iff (hprobe _)).mpr hsame
  rw [Ty.subst_var, Ty.subst_var, probe_self hv hunbound, probe_self hv hunbound] at heq
  cases heq

/-- A term resolves as before if it shows none of the variables that the change is confined to. -/
theorem Confined.resolve_eq_of_apart {s s' : Store} {fixed : List Var}
    (h : s.Confined fixed s') (hs : s.WellFormed) {t : Ty} (ht : s.Covers t)
    (hapart : ∀ v ∈ (s.resolve t).vars, v ∉ s.varsOf fixed) : s'.resolve t = s.resolve t := by
  rw [← h.toExtends.resolve_resolve]
  refine resolve_of_unlinked fun v hv => ?_
  exact h.unbound_of_not_mem hs (hs.covers_resolve ht v hv) (unlinked_resolve hs.acyclic t v hv)
    (hapart v hv)

section nothingFixed

variable {s s' : Store}

theorem not_mem_varsOf_nil (v : Var) : v ∉ s.varsOf [] := by simp [varsOf]

theorem Confined.unbound (h : s.Confined [] s') (hs : s.WellFormed) {v : Var}
    (hv : v.index < s.size) (hunbound : s.link? v = none) : s'.link? v = none :=
  h.unbound_of_not_mem hs hv hunbound (not_mem_varsOf_nil v)

/-- Old terms resolve as before. -/
theorem Confined.resolve_eq (h : s.Confined [] s') (hs : s.WellFormed) {t : Ty}
    (ht : s.Covers t) : s'.resolve t = s.resolve t :=
  h.resolve_eq_of_apart hs ht fun v _ => not_mem_varsOf_nil v

/-- Old links stay, or move to where they led. -/
theorem Confined.link?_eq (h : s.Confined [] s') (hs : s.WellFormed) {v : Var} {t : Ty}
    (hl : s.link? v = some t) : s'.link? v = some t ∨ s'.link? v = some (t.prune s).1 := by
  obtain ⟨hend, hr, -⟩ := prune_spec hs s.size (t := t) fun w _ => s.rank_le_size w
  refine h.relinks v t (s.prune s.size t).1 hl hend ?_
  rcases hr.cases with ⟨w, hw, hunbound, -⟩ | ⟨c, args, hcon, -⟩
  · have hw' : w.index < s.size := covers_var.mp (hw ▸ hr.covers (hs.closed hl))
    rw [hw]
    exact h.unbound hs hw' hunbound
  · rw [hcon]
    trivial

/-- A type that does not depend on the old variables shows none of them. -/
theorem Confined.new_of_mem (h : s.Confined [] s') (hs : s.WellFormed) {t : Ty}
    (ht : s.Stable [] s' t) {w : Var} (hw : w ∈ (s'.resolve t).vars) : s.size ≤ w.index := by
  by_contra hlt
  have hlt := Nat.not_le.mp hlt
  have hunbound := h.unbound_of_mem hw
  have hprobe := fun a => h.solvedBy_probe hs (not_mem_varsOf_nil w) a
  have hstable : ∀ a, t.subst (s.probe s' w a) = t.subst fun v => s'.resolve (.var v) := fun a =>
    ht _ _ (solvedBy_resolve h.wellFormed.acyclic) (solvedBy_resolve_comp hs.acyclic _)
      fun _ hf => nomatch hf
  have heq := ((hprobe (.nullary .unit)).subst_eq_iff (hprobe (.nullary .bool))).mp
    ((hstable _).trans (hstable _).symm) w hw
  rw [probe_self hlt hunbound, probe_self hlt hunbound] at heq
  cases heq

end nothingFixed

end Store

end Overload
