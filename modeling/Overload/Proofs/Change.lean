import Overload.Proofs.Links

/-!
# What can happen to a store

`Extends` is what an operation may do: allocate variables and add equations. It never takes an
equation back and never closes a cycle. `Evolves` adds what becomes of the links themselves: they
stay, or move to the end of their chain. `Alike` is the part that adds no equation, and `Quiet` the
part of that which allocates nothing either, as reading a term does.

Only four things change a store, and each has its lemma: linking an unbound variable
(`extends_bind`), moving the link of a bound one further along its chain (`alike_relink`),
allocating a variable (`alike_fresh`), and handing out a name, which touches no link at all
(`quiet_name`).
-/

namespace Overload

namespace Store

open Relation

/-- `s'` keeps all variables and equations of `s`. -/
structure Extends (s s' : Store) : Prop where
  wellFormed : s'.WellFormed
  size_le : s.size ≤ s'.size
  bound : ∀ v, s'.link? v = none → s.link? v = none
  solved : ∀ θ, s'.SolvedBy θ → s.SolvedBy θ

/-! ## Chains of links -/

/-- The end of a chain of links. -/
def Representative (s : Store) : Ty → Prop
  | .var v => s.link? v = none
  | .con .. => True

/-- The chain of links that starts at the first term ends at the second. -/
inductive EndsAt (s : Store) : Ty → Ty → Prop
  | here {r : Ty} : s.Representative r → EndsAt s r r
  | link {v : Var} {t r : Ty} : s.link? v = some t → EndsAt s t r → EndsAt s (.var v) r

namespace EndsAt

variable {s : Store} {t r : Ty}

theorem representative (h : s.EndsAt t r) : s.Representative r := by
  induction h with
  | here hr => exact hr
  | link _ _ ih => exact ih

theorem resolve_eq (hs : s.Acyclic) (h : s.EndsAt t r) : s.resolve r = s.resolve t := by
  induction h with
  | here => rfl
  | link hl _ ih => rw [ih, resolve_of_link hs hl]

theorem of_link {v : Var} (h : s.EndsAt (.var v) r) (hl : s.link? v = some t) :
    s.EndsAt t r := by
  cases h with
  | here hr =>
      rw [Representative, hl] at hr
      cases hr
  | link hl' h =>
      rw [hl] at hl'
      exact Option.some.inj hl' ▸ h

/-- A chain has one end. -/
theorem unique {r' : Ty} (h : s.EndsAt t r) (h' : s.EndsAt t r') : r = r' := by
  induction h with
  | here hr =>
      cases h' with
      | here => rfl
      | link hl =>
          rw [Representative, hl] at hr
          cases hr
  | link hl _ ih => exact ih (h'.of_link hl)

end EndsAt

/-- Every link of `s` is still there, or has been moved to the end of its chain. Nothing is said of
chains that do not end any longer where they did. -/
def Relinks (s s' : Store) : Prop :=
  ∀ v t r, s.link? v = some t → s.EndsAt t r → s'.Representative r →
    s'.link? v = some t ∨ s'.link? v = some r

theorem Relinks.of_link?_eq {s s' : Store} (h : ∀ v, s'.link? v = s.link? v) : s.Relinks s' :=
  fun v _ _ hl _ _ => .inl ((h v).trans hl)

/-- Chains that end where they did may have become shorter. -/
theorem Relinks.endsAt {s s' : Store} (h : s.Relinks s') {t r : Ty} (ht : s.EndsAt t r)
    (hr : s'.Representative r) : s'.EndsAt t r := by
  induction ht with
  | here => exact .here hr
  | link hl ht ih =>
      rcases h _ _ _ hl ht hr with hl' | hl'
      · exact .link hl' (ih hr)
      · exact .link hl' (.here hr)

theorem Relinks.trans {s₁ s₂ s₃ : Store} (h : s₁.Relinks s₂) (h' : s₂.Relinks s₃)
    (hbound : ∀ v, s₃.link? v = none → s₂.link? v = none) : s₁.Relinks s₃ := by
  intro v t r hl ht hr
  have hr₂ : s₂.Representative r := by
    cases r with
    | var w => exact hbound w hr
    | con => trivial
  rcases h v t r hl ht hr₂ with hl₂ | hl₂
  · exact h' v t r hl₂ (h.endsAt ht hr₂) hr
  · rcases h' v r r hl₂ (.here hr₂) hr with hl₃ | hl₃
    · exact .inr hl₃
    · exact .inr hl₃

/-! ## Changes -/

/-- `Extends`, and the links are as before up to their place on the chain. -/
structure Evolves (s s' : Store) : Prop extends Extends s s' where
  relinks : s.Relinks s'

/-- `s'` has the bound variables and the equations of `s`, no others. -/
structure Alike (s s' : Store) : Prop where
  wellFormed : s'.WellFormed
  size_le : s.size ≤ s'.size
  bound_iff : ∀ v, s'.link? v = none ↔ s.link? v = none
  solved_iff : ∀ θ, s'.SolvedBy θ ↔ s.SolvedBy θ
  relinks : s.Relinks s'

/-- `Alike` without new variables, and with links no higher than before. -/
structure Quiet (s s' : Store) : Prop extends Alike s s' where
  size_eq : s'.size = s.size
  height_le : ∀ n, s.HeightLe n → s'.HeightLe n

theorem Alike.extends {s s' : Store} (h : s.Alike s') : s.Extends s' where
  wellFormed := h.wellFormed
  size_le := h.size_le
  bound v := (h.bound_iff v).mp
  solved θ := (h.solved_iff θ).mp

theorem Alike.evolves {s s' : Store} (h : s.Alike s') : s.Evolves s' := ⟨h.extends, h.relinks⟩

theorem Extends.refl {s : Store} (hs : s.WellFormed) : s.Extends s :=
  ⟨hs, Nat.le_refl _, fun _ h => h, fun _ h => h⟩

theorem Extends.trans {s₁ s₂ s₃ : Store} (h : s₁.Extends s₂) (h' : s₂.Extends s₃) :
    s₁.Extends s₃ where
  wellFormed := h'.wellFormed
  size_le := Nat.le_trans h.size_le h'.size_le
  bound v hv := h.bound v (h'.bound v hv)
  solved θ hθ := h.solved θ (h'.solved θ hθ)

theorem Evolves.refl {s : Store} (hs : s.WellFormed) : s.Evolves s :=
  ⟨.refl hs, .of_link?_eq fun _ => rfl⟩

theorem Evolves.trans {s₁ s₂ s₃ : Store} (h : s₁.Evolves s₂) (h' : s₂.Evolves s₃) :
    s₁.Evolves s₃ :=
  ⟨h.toExtends.trans h'.toExtends, h.relinks.trans h'.relinks h'.bound⟩

theorem Alike.refl {s : Store} (hs : s.WellFormed) : s.Alike s :=
  ⟨hs, Nat.le_refl _, fun _ => .rfl, fun _ => .rfl, .of_link?_eq fun _ => rfl⟩

theorem Alike.trans {s₁ s₂ s₃ : Store} (h : s₁.Alike s₂) (h' : s₂.Alike s₃) : s₁.Alike s₃ where
  wellFormed := h'.wellFormed
  size_le := Nat.le_trans h.size_le h'.size_le
  bound_iff v := (h'.bound_iff v).trans (h.bound_iff v)
  solved_iff θ := (h'.solved_iff θ).trans (h.solved_iff θ)
  relinks := h.relinks.trans h'.relinks fun v => (h'.bound_iff v).mp

theorem Quiet.refl {s : Store} (hs : s.WellFormed) : s.Quiet s :=
  ⟨.refl hs, rfl, fun _ h => h⟩

theorem Quiet.trans {s₁ s₂ s₃ : Store} (h : s₁.Quiet s₂) (h' : s₂.Quiet s₃) : s₁.Quiet s₃ where
  toAlike := h.toAlike.trans h'.toAlike
  size_eq := h'.size_eq.trans h.size_eq
  height_le n hn := h'.height_le n (h.height_le n hn)

/-- What was equal stays equal: the later resolved form is an instance of the earlier one. -/
theorem Extends.resolve_resolve {s s' : Store} (h : s.Extends s') (t : Ty) :
    s'.resolve (s.resolve t) = s'.resolve t := by
  have hsol := h.solved _ (solvedBy_resolve h.wellFormed.acyclic)
  rw [resolve_eq_subst s' (s.resolve t), hsol.subst_resolve, ← resolve_eq_subst]

theorem Extends.resolve_eq {s s' : Store} (h : s.Extends s') {t u : Ty}
    (htu : s.resolve t = s.resolve u) : s'.resolve t = s'.resolve u := by
  rw [← h.resolve_resolve t, htu, h.resolve_resolve]

/-- Every term resolves as before. -/
theorem Alike.resolve_eq {s s' : Store} (hs : s.WellFormed) (h : s.Alike s') (t : Ty) :
    s'.resolve t = s.resolve t := by
  rw [← h.extends.resolve_resolve]
  refine resolve_of_unlinked fun v hv => ?_
  exact (h.bound_iff v).mpr (unlinked_resolve hs.acyclic t v hv)

/-! ## Stores with the same links -/

theorem WellFormed.of_link?_eq {s s' : Store} (hs : s.WellFormed) (hsize : s.size ≤ s'.size)
    (hlink : ∀ v, s'.link? v = s.link? v) : s'.WellFormed := by
  have hpoints : s'.Points = s.Points := by
    funext v w
    simp only [Points, hlink]
  constructor
  · intro v t h
    rw [hlink] at h
    exact (hs.closed h).mono hsize
  · intro v hv
    rw [hpoints] at hv
    exact hs.acyclic v hv

theorem alike_of_link?_eq {s s' : Store} (hs : s.WellFormed) (hsize : s.size ≤ s'.size)
    (hlink : ∀ v, s'.link? v = s.link? v) : s.Alike s' where
  wellFormed := hs.of_link?_eq hsize hlink
  size_le := hsize
  bound_iff v := by rw [hlink]
  solved_iff θ := by simp only [SolvedBy, hlink]
  relinks := .of_link?_eq hlink

theorem quiet_of_link?_eq {s s' : Store} (hs : s.WellFormed) (hsize : s'.size = s.size)
    (hlink : ∀ v, s'.link? v = s.link? v) : s.Quiet s' where
  toAlike := alike_of_link?_eq hs (Nat.le_of_eq hsize.symm) hlink
  size_eq := hsize
  height_le n hn v t h := hn v t (by rwa [hlink] at h)

/-- Naming a variable changes no link. -/
theorem quiet_name {s : Store} (hs : s.WellFormed) (v : Var) : s.Quiet (v.name s).2 := by
  have hname : (v.name s).2.size = s.size ∧ ∀ w, (v.name s).2.link? w = s.link? w := by
    simp only [Var.name, modifyGet, MonadStateOf.modifyGet, StateT.modifyGet]
    split
    · exact ⟨rfl, fun _ => rfl⟩
    · split
      · exact ⟨rfl, fun _ => rfl⟩
      · refine ⟨by simp [size, pure], fun w => ?_⟩
        simp only [link?, pure, Array.getElem?_modify]
        split
        · cases s.cells[w.index]? <;> simp_all
        · rfl
  exact quiet_of_link?_eq hs hname.1 hname.2

/-! ## Allocation -/

theorem size_fresh (p : SupplyId) (s : Store) : (p.fresh s).2.size = s.size + 1 := by
  simp [SupplyId.fresh, modifyGet, MonadStateOf.modifyGet, StateT.modifyGet, size, pure]

theorem fresh_index (p : SupplyId) (s : Store) : (p.fresh s).1 = ⟨s.size⟩ := rfl

theorem covers_fresh (p : SupplyId) (s : Store) : (p.fresh s).2.Covers (.var (p.fresh s).1) := by
  rw [covers_var, size_fresh, fresh_index]
  exact Nat.lt_succ_self _

theorem link?_fresh (p : SupplyId) (s : Store) (v : Var) :
    (p.fresh s).2.link? v = s.link? v := by
  simp only [SupplyId.fresh, modifyGet, MonadStateOf.modifyGet, StateT.modifyGet, link?, pure,
    Array.getElem?_push]
  split
  · next h => simp [h]
  · rfl

theorem alike_fresh {s : Store} (hs : s.WellFormed) (p : SupplyId) : s.Alike (p.fresh s).2 :=
  alike_of_link?_eq hs (by rw [size_fresh]; omega) (link?_fresh p s)

/-! ## Setting a link -/

theorem link?_setLink {s : Store} {v w : Var} {t u : Ty} (h : (s.setLink v t).link? w = some u) :
    (w = v ∧ u = t) ∨ (w ≠ v ∧ s.link? w = some u) := by
  by_cases hw : w = v
  · subst hw
    have hi : w.index < s.size := by simpa using lt_size_of_link? h
    rw [link?_setLink_self t hi] at h
    exact .inl ⟨rfl, (Option.some.inj h).symm⟩
  · rw [link?_setLink_of_ne t hw] at h
    exact .inr ⟨hw, h⟩

theorem points_setLink {s : Store} {v a b : Var} {t : Ty} (h : (s.setLink v t).Points a b) :
    s.Points a b ∨ (a = v ∧ b ∈ t.vars) := by
  obtain ⟨u, hl, hb⟩ := h
  rcases link?_setLink hl with ⟨rfl, rfl⟩ | ⟨-, hl⟩
  · exact .inr ⟨rfl, hb⟩
  · exact .inl ⟨u, hl, hb⟩

/-- A path with the new link is an old one, or the last time it takes the new link it goes on from
a variable of the new term. -/
theorem transGen_setLink {s : Store} {v a b : Var} {t : Ty}
    (h : TransGen (s.setLink v t).Points a b) :
    TransGen s.Points a b
      ∨ (ReflTransGen s.Points a v ∧ ∃ w ∈ t.vars, ReflTransGen s.Points w b) := by
  induction h with
  | single hstep =>
      rcases points_setLink hstep with hstep | ⟨rfl, hb⟩
      · exact .inl (.single hstep)
      · exact .inr ⟨.refl, _, hb, .refl⟩
  | tail _ hstep ih =>
      rcases points_setLink hstep with hstep | ⟨rfl, hb⟩
      · rcases ih with hab | ⟨hav, w, hw, hwb⟩
        · exact .inl (hab.tail hstep)
        · exact .inr ⟨hav, w, hw, hwb.tail hstep⟩
      · rcases ih with hab | ⟨hav, -⟩
        · exact .inr ⟨hab.to_reflTransGen, _, hb, .refl⟩
        · exact .inr ⟨hav, _, hb, .refl⟩

theorem WellFormed.setLink {s : Store} (hs : s.WellFormed) {v : Var} {t : Ty} (ht : s.Covers t)
    (hv : ∀ w ∈ t.vars, ¬ReflTransGen s.Points w v) : (s.setLink v t).WellFormed := by
  constructor
  · intro w u hl
    rcases link?_setLink hl with ⟨-, rfl⟩ | ⟨-, hl⟩
    · exact ht.mono (by simp)
    · exact (hs.closed hl).mono (by simp)
  · intro a ha
    rcases transGen_setLink ha with ha | ⟨hav, w, hw, hwa⟩
    · exact hs.acyclic a ha
    · exact hv w hw (hwa.trans hav)

theorem HeightLe.setLink {s : Store} {n : Nat} (hs : s.HeightLe n) {t : Ty} (ht : t.height ≤ n)
    (v : Var) : (s.setLink v t).HeightLe n := by
  intro w u hl
  rcases link?_setLink hl with ⟨-, rfl⟩ | ⟨-, hl⟩
  · exact ht
  · exact hs w u hl

theorem bound_setLink {s : Store} {v w : Var} {t : Ty} (h : (s.setLink v t).link? w = none) :
    s.link? w = none := by
  by_cases hw : w = v
  · subst hw
    by_contra hl
    obtain ⟨u, hu⟩ := Option.ne_none_iff_exists'.mp hl
    rw [link?_setLink_self t (lt_size_of_link? hu)] at h
    cases h
  · rwa [link?_setLink_of_ne t hw] at h

/-! ### Binding an unbound variable -/

/-- The new link is one more equation. -/
theorem solvedBy_bind_iff {s : Store} {v : Var} {t : Ty} {θ : Subst} (hv : s.link? v = none)
    (hi : v.index < s.size) :
    (s.setLink v t).SolvedBy θ ↔ s.SolvedBy θ ∧ θ v = t.subst θ := by
  constructor
  · intro h
    refine ⟨fun w u hl => ?_, h v t (link?_setLink_self t hi)⟩
    have hw : w ≠ v := by
      rintro rfl
      rw [hv] at hl
      cases hl
    exact h w u (by rwa [link?_setLink_of_ne t hw])
  · rintro ⟨h, hvt⟩ w u hl
    rcases link?_setLink hl with ⟨rfl, rfl⟩ | ⟨-, hl⟩
    · exact hvt
    · exact h w u hl

/-- The occurs check is all that binding has to ask for. -/
theorem extends_bind {s : Store} (hs : s.WellFormed) {v : Var} {t : Ty} (hv : s.link? v = none)
    (hi : v.index < s.size) (ht : s.Covers t) (hocc : v ∉ (s.resolve t).vars) :
    s.Extends (s.setLink v t) where
  wellFormed := hs.setLink ht fun w hw hwv =>
    hocc ((mem_vars_resolve hs.acyclic).mpr ⟨hv, w, hw, hwv⟩)
  size_le := by simp
  bound _ := bound_setLink
  solved _ h := ((solvedBy_bind_iff hv hi).mp h).1

/-- Links that were there stay as they are. -/
theorem relinks_bind {s : Store} {v : Var} (hv : s.link? v = none) (t : Ty) :
    s.Relinks (s.setLink v t) := by
  intro w u r hl _ _
  have hne : w ≠ v := by
    rintro rfl
    rw [hv] at hl
    cases hl
  exact .inl (by rwa [link?_setLink_of_ne t hne])

/-! ### Relinking a bound variable -/

/-- A bound variable is not in reach of its representative: it would resolve to a term that
contains itself. -/
theorem Representative.not_reach {s : Store} (hs : s.Acyclic) {r : Ty} (hr : s.Representative r)
    {v : Var} (hv : s.link? v ≠ none) (hres : s.resolve r = s.resolve (.var v)) :
    ∀ w ∈ r.vars, ¬ReflTransGen s.Points w v := by
  intro w hw hwv
  cases r with
  | var x =>
      obtain rfl := List.mem_singleton.mp (by simpa using hw)
      rcases hwv.cases_head with rfl | ⟨_, ⟨u, hl, -⟩, -⟩
      · exact hv hr
      · rw [Representative, hl] at hr
        cases hr
  | con c args =>
      have hle := height_resolve_le_of_reach hs hwv
      have hlt := Ty.height_lt_of_mem_vars (fun v => s.resolve (.var v)) hw
      rw [← resolve_eq_subst, hres] at hlt
      omega

/-- A bound variable may be linked to the end of its chain instead. -/
theorem alike_relink {s : Store} (hs : s.WellFormed) {v : Var} {r : Ty} (hv : s.link? v ≠ none)
    (hend : s.EndsAt (.var v) r) (hcov : s.Covers r) : s.Alike (s.setLink v r) := by
  obtain ⟨t, hl⟩ := Option.ne_none_iff_exists'.mp hv
  have hres := hend.resolve_eq hs.acyclic
  have hreach := hend.representative.not_reach hs.acyclic hv hres
  refine ⟨hs.setLink hcov hreach, by simp, fun w => ⟨bound_setLink, fun hw => ?_⟩,
    fun θ => ⟨fun h => ?_, fun h w u hw => ?_⟩, fun w u r' hw hu _ => ?_⟩
  · have hne : w ≠ v := by
      rintro rfl
      exact hv hw
    rwa [link?_setLink_of_ne r hne]
  · -- the equations other than that of `v` give `r` and the old link the same value
    have hother : ∀ {w u}, w ≠ v → s.link? w = some u → θ w = u.subst θ :=
      fun hw hlw => h _ _ (by rwa [link?_setLink_of_ne r hw])
    have hold : (s.resolve t).subst θ = t.subst θ := by
      refine subst_resolve_of_reach fun w hw x u hwx => hother ?_
      rintro rfl
      exact hs.acyclic x (.head' ⟨t, hl, hw⟩ hwx)
    have hnew : (s.resolve r).subst θ = r.subst θ := by
      refine subst_resolve_of_reach fun w hw x u hwx => hother ?_
      rintro rfl
      exact hreach w hw hwx
    intro w u hlw
    by_cases hw : w = v
    · subst hw
      obtain rfl := Option.some.inj (hl.symm.trans hlw)
      rw [h w r (link?_setLink_self r (lt_size_of_link? hl)), ← hnew, ← hold, hres,
        resolve_of_link hs.acyclic hl]
    · exact hother hw hlw
  · rcases link?_setLink hw with ⟨rfl, rfl⟩ | ⟨-, hw⟩
    · rw [← h.subst_resolve u, hres, h.subst_resolve, Ty.subst_var]
    · exact h w u hw
  · by_cases hwv : w = v
    · subst hwv
      rw [link?_setLink_self r (lt_size_of_link? hw), hu.unique (hend.of_link hw)]
      exact .inr rfl
    · exact .inl (by rwa [link?_setLink_of_ne r hwv])

end Store

end Overload
