import Mathlib.Data.List.Forall2
import Overload.Proofs.Copying

/-!
# Two stores in step

What inference does to a store does not depend on where in the store its variables lie. To say so,
two stores are compared through a renaming `ρ` of variables: terms are twins (`Store.Twin`) if they
stand for the same up to `ρ`. Links need not correspond one by one, since chains may have been
shortened in one store and not in the other.

Each thing that can happen to a store has its lemma here, for both stores at once: twins stay twins
while terms are read (`Paired.quiet`), when twin variables are bound to twin terms (`Paired.bind`),
when a variable is allocated in both stores (`Paired.fresh`), and when twins are copied, in which
case the copies are twins as well (`Paired.copy`).
-/

namespace Overload

/-! ## Renaming the variables of a term -/

namespace Ty

variable {ρ : Var → Var}

def rename (ρ : Var → Var) (t : Ty) : Ty := t.subst fun v => .var (ρ v)

@[simp] theorem rename_var (ρ : Var → Var) (v : Var) : (Ty.var v).rename ρ = .var (ρ v) := by
  simp [rename]

@[simp] theorem rename_con (ρ : Var → Var) (c : TypeCon) (args : List Ty) :
    (Ty.con c args).rename ρ = .con c (args.map (rename ρ)) := by
  rw [rename, subst_con]
  rfl

@[simp] theorem vars_rename (ρ : Var → Var) (t : Ty) : (t.rename ρ).vars = t.vars.map ρ := by
  rw [rename, vars_subst, List.map_eq_flatMap]
  simp only [vars_var]

theorem rename_subst (ρ : Var → Var) (θ : Subst) (t : Ty) :
    (t.rename ρ).subst θ = t.subst fun v => θ (ρ v) := by
  simp only [rename, subst_subst, subst_var]

theorem subst_rename (θ : Subst) (ρ : Var → Var) (t : Ty) :
    (t.subst θ).rename ρ = t.subst fun v => (θ v).rename ρ :=
  subst_subst θ _ t

theorem mem_vars_rename (hρ : Function.Injective ρ) {t : Ty} {v : Var} :
    ρ v ∈ (t.rename ρ).vars ↔ v ∈ t.vars := by
  rw [vars_rename, List.mem_map_of_injective hρ]

end Ty

namespace Store

variable {ρ : Var → Var} {s₁ s₂ s₁' s₂' : Store}

/-! ## Twins -/

/-- The terms stand for the same, each in its store, up to the names of variables. -/
def Twin (s₁ : Store) (ρ : Var → Var) (s₂ : Store) (t₁ t₂ : Ty) : Prop :=
  s₂.resolve t₂ = (s₁.resolve t₁).rename ρ

theorem twin_con {c : TypeCon} {as bs : List Ty} (h : List.Forall₂ (s₁.Twin ρ s₂) as bs) :
    s₁.Twin ρ s₂ (.con c as) (.con c bs) := by
  have hargs : bs.map s₂.resolve = (as.map s₁.resolve).map (Ty.rename ρ) := by
    induction h with
    | nil => rfl
    | cons hab _ ih => rw [List.map_cons, List.map_cons, List.map_cons, hab, ih]
  rw [Twin, resolve_con, resolve_con, Ty.rename_con, hargs]

theorem Twin.fn {a₁ a₂ b₁ b₂ : Ty} (ha : s₁.Twin ρ s₂ a₁ a₂) (hb : s₁.Twin ρ s₂ b₁ b₂) :
    s₁.Twin ρ s₂ (.fn a₁ b₁) (.fn a₂ b₂) :=
  twin_con (.cons ha (.cons hb .nil))

theorem twin_of_unbound {v : Var} (h₁ : s₁.link? v = none) (h₂ : s₂.link? (ρ v) = none) :
    s₁.Twin ρ s₂ (.var v) (.var (ρ v)) := by
  rw [Twin, resolve_of_unbound h₁, resolve_of_unbound h₂, Ty.rename_var]

/-- The representatives of twins are twin variables, or the same constructor on twins. -/
theorem Twin.heads {t₁ t₂ r₁ r₂ : Ty} (h : s₁.Twin ρ s₂ t₁ t₂) (h₁ : s₁.Represents t₁ r₁)
    (h₂ : s₂.Represents t₂ r₂) :
    (∃ v, r₁ = .var v ∧ r₂ = .var (ρ v))
      ∨ ∃ c as bs, r₁ = .con c as ∧ r₂ = .con c bs ∧ List.Forall₂ (s₁.Twin ρ s₂) as bs := by
  rw [Twin] at h
  rcases h₁.cases with ⟨v, rfl, -, ht₁⟩ | ⟨c, as, rfl, ht₁⟩
  · rcases h₂.cases with ⟨w, rfl, -, ht₂⟩ | ⟨d, bs, rfl, ht₂⟩
    · rw [ht₁, ht₂, Ty.rename_var] at h
      exact .inl ⟨v, rfl, h⟩
    · rw [ht₁, ht₂, Ty.rename_var] at h
      cases h
  · rcases h₂.cases with ⟨w, rfl, -, ht₂⟩ | ⟨d, bs, rfl, ht₂⟩
    · rw [ht₁, ht₂, Ty.rename_con] at h
      cases h
    · rw [ht₁, ht₂, Ty.rename_con] at h
      obtain ⟨rfl, hargs⟩ := Ty.con.inj h
      refine .inr ⟨d, as, bs, rfl, rfl, ?_⟩
      rw [← List.forall₂_eq_eq_eq, List.forall₂_map_left_iff, List.forall₂_map_right_iff,
        List.forall₂_map_right_iff] at hargs
      exact hargs.flip

theorem Twin.represent {t₁ t₂ r₁ r₂ : Ty} (h : s₁.Twin ρ s₂ t₁ t₂) (h₁ : s₁.Represents t₁ r₁)
    (h₂ : s₂.Represents t₂ r₂) : s₁.Twin ρ s₂ r₁ r₂ := by
  rwa [Twin, h₁.resolve_eq, h₂.resolve_eq]

theorem Twin.mem_vars_iff (hρ : Function.Injective ρ) {t₁ t₂ : Ty} (h : s₁.Twin ρ s₂ t₁ t₂)
    {v : Var} : ρ v ∈ (s₂.resolve t₂).vars ↔ v ∈ (s₁.resolve t₁).vars := by
  rw [h, Ty.mem_vars_rename hρ]

/-! ## Steps of both stores -/

/-- Two stores in which the variables to come correspond. -/
structure Paired (s₁ : Store) (ρ : Var → Var) (s₂ : Store) : Prop where
  left : s₁.WellFormed
  right : s₂.WellFormed
  next : ∀ k, ρ ⟨s₁.size + k⟩ = ⟨s₂.size + k⟩

/-- Both stores go on, and what was twin stays twin. -/
structure Advances (s₁ : Store) (ρ : Var → Var) (s₂ s₁' s₂' : Store) : Prop where
  left : s₁.Extends s₁'
  right : s₂.Extends s₂'
  next : ∀ k, ρ ⟨s₁'.size + k⟩ = ⟨s₂'.size + k⟩
  twins : ∀ {t₁ t₂}, s₁.Twin ρ s₂ t₁ t₂ → s₁'.Twin ρ s₂' t₁ t₂

theorem Advances.paired (h : s₁.Advances ρ s₂ s₁' s₂') : s₁'.Paired ρ s₂' :=
  ⟨h.left.wellFormed, h.right.wellFormed, h.next⟩

theorem Advances.trans {s₁'' s₂'' : Store} (h : s₁.Advances ρ s₂ s₁' s₂')
    (h' : s₁'.Advances ρ s₂' s₁'' s₂'') : s₁.Advances ρ s₂ s₁'' s₂'' where
  left := h.left.trans h'.left
  right := h.right.trans h'.right
  next := h'.next
  twins ht := h'.twins (h.twins ht)

/-- Terms in scope that are twins. -/
structure Shares (s₁ : Store) (ρ : Var → Var) (s₂ : Store) (t₁ t₂ : Ty) : Prop where
  left : s₁.Covers t₁
  right : s₂.Covers t₂
  twin : s₁.Twin ρ s₂ t₁ t₂

theorem Shares.advance {t₁ t₂ : Ty} (h : s₁.Shares ρ s₂ t₁ t₂)
    (hadv : s₁.Advances ρ s₂ s₁' s₂') : s₁'.Shares ρ s₂' t₁ t₂ :=
  ⟨h.left.mono hadv.left.size_le, h.right.mono hadv.right.size_le, hadv.twins h.twin⟩

theorem Shares.fn {t₁ t₂ u₁ u₂ : Ty} (ht : s₁.Shares ρ s₂ t₁ t₂) (hu : s₁.Shares ρ s₂ u₁ u₂) :
    s₁.Shares ρ s₂ (.fn t₁ u₁) (.fn t₂ u₂) :=
  ⟨covers_fn.mpr ⟨ht.left, hu.left⟩, covers_fn.mpr ⟨ht.right, hu.right⟩, ht.twin.fn hu.twin⟩

namespace Paired

theorem alike (h : s₁.Paired ρ s₂) (h₁ : s₁.Alike s₁') (h₂ : s₂.Alike s₂')
    (hnext : ∀ k, ρ ⟨s₁'.size + k⟩ = ⟨s₂'.size + k⟩) : s₁.Advances ρ s₂ s₁' s₂' where
  left := h₁.extends
  right := h₂.extends
  next := hnext
  twins ht := by rwa [Twin, h₁.resolve_eq h.left, h₂.resolve_eq h.right]

theorem quiet (h : s₁.Paired ρ s₂) (h₁ : s₁.Quiet s₁') (h₂ : s₂.Quiet s₂') :
    s₁.Advances ρ s₂ s₁' s₂' :=
  h.alike h₁.toAlike h₂.toAlike fun k => by rw [h₁.size_eq, h₂.size_eq, h.next]

theorem refl (h : s₁.Paired ρ s₂) : s₁.Advances ρ s₂ s₁ s₂ := h.quiet (.refl h.left) (.refl h.right)

/-- The variables allocated next are twins. -/
theorem fresh (h : s₁.Paired ρ s₂) (p : SupplyId) :
    s₁.Advances ρ s₂ (p.fresh s₁).2 (p.fresh s₂).2 ∧ (p.fresh s₂).1 = ρ (p.fresh s₁).1
      ∧ (p.fresh s₁).2.Twin ρ (p.fresh s₂).2 (.var (p.fresh s₁).1) (.var (p.fresh s₂).1) := by
  have hnew : (p.fresh s₂).1 = ρ (p.fresh s₁).1 := (h.next 0).symm
  refine ⟨h.alike (alike_fresh h.left p) (alike_fresh h.right p) fun k => ?_, hnew, ?_⟩
  · rw [size_fresh, size_fresh, Nat.add_assoc, Nat.add_assoc, h.next]
  · rw [hnew]
    refine twin_of_unbound ?_ ?_
    · rw [link?_fresh, fresh_index]
      exact link?_of_size_le (Nat.le_refl _)
    · rw [← hnew, link?_fresh, fresh_index]
      exact link?_of_size_le (Nat.le_refl _)

end Paired

/-! ## Binding -/

/-- What a term resolves to once a variable has been bound. -/
theorem resolve_setLink {s : Store} (hs : s.WellFormed) {v : Var} {t : Ty} (hv : s.link? v = none)
    (hi : v.index < s.size) (ht : s.Covers t) (hocc : v ∉ (s.resolve t).vars) (u : Ty) :
    (s.setLink v t).resolve u
      = (s.resolve u).subst fun x => if x = v then s.resolve t else .var x := by
  have hext := extends_bind hs hv hi ht hocc
  have hother : ∀ {x}, x ≠ v → s.link? x = none → (s.setLink v t).link? x = none :=
    fun hne hx => by rwa [link?_setLink_of_ne t hne]
  rw [← hext.resolve_resolve, resolve_eq_subst]
  refine Ty.subst_congr fun x hx => ?_
  have hunbound := unlinked_resolve hs.acyclic u x hx
  by_cases hxv : x = v
  · subst hxv
    rw [if_pos rfl, resolve_of_link hext.wellFormed.acyclic (link?_setLink_self t hi),
      ← hext.resolve_resolve]
    refine resolve_of_unlinked fun w hw => hother ?_ (unlinked_resolve hs.acyclic t w hw)
    rintro rfl
    exact hocc hw
  · rw [if_neg hxv, resolve_of_unbound (hother hxv hunbound)]

theorem Paired.bind (hρ : Function.Injective ρ) (h : s₁.Paired ρ s₂) {v : Var} {r₁ r₂ : Ty}
    (hv₁ : s₁.link? v = none) (hi₁ : v.index < s₁.size) (hr₁ : s₁.Covers r₁)
    (hv₂ : s₂.link? (ρ v) = none) (hi₂ : (ρ v).index < s₂.size) (hr₂ : s₂.Covers r₂)
    (hr : s₁.Twin ρ s₂ r₁ r₂) (hocc : v ∉ (s₁.resolve r₁).vars) :
    s₁.Advances ρ s₂ (s₁.setLink v r₁) (s₂.setLink (ρ v) r₂) := by
  have hocc₂ : ρ v ∉ (s₂.resolve r₂).vars := fun hmem => hocc ((hr.mem_vars_iff hρ).mp hmem)
  refine ⟨extends_bind h.left hv₁ hi₁ hr₁ hocc, extends_bind h.right hv₂ hi₂ hr₂ hocc₂, ?_, ?_⟩
  · simpa using h.next
  · intro t₁ t₂ ht
    rw [Twin, resolve_setLink h.left hv₁ hi₁ hr₁ hocc, resolve_setLink h.right hv₂ hi₂ hr₂ hocc₂,
      ht, Ty.rename_subst, Ty.subst_rename]
    refine Ty.subst_congr fun x _ => ?_
    by_cases hxv : x = v
    · rw [if_pos hxv, if_pos (congrArg ρ hxv), hr]
    · rw [if_neg hxv, if_neg (hρ.ne hxv), Ty.rename_var]

end Store

/-! ## Copying -/

namespace Renaming

variable {ρ : Var → Var}

/-- The same replacements under other names. -/
def rename (ρ : Var → Var) (m : Renaming) : Renaming := m.map fun (v, w) => (ρ v, ρ w)

theorem lookup_rename (hρ : Function.Injective ρ) (m : Renaming) (v : Var) :
    (m.rename ρ).lookup (ρ v) = (m.lookup v).map ρ := by
  induction m with
  | nil => rfl
  | cons q m ih =>
      obtain ⟨u, w⟩ := q
      have hbeq : (ρ v == ρ u) = (v == u) := by simp [hρ.eq_iff]
      rw [rename, List.map_cons, List.lookup_cons, List.lookup_cons, hbeq]
      cases v == u with
      | true => rfl
      | false => exact ih

theorem toSubst_rename (hρ : Function.Injective ρ) (m : Renaming) (kept : List Var) (v : Var) :
    (m.rename ρ).toSubst (kept.map ρ) (ρ v) = (m.toSubst kept v).rename ρ := by
  simp only [toSubst, List.mem_map_of_injective hρ, lookup_rename hρ]
  split
  · rw [Ty.rename_var]
  · cases m.lookup v with
    | none => simp
    | some w => simp

/-- Variables that correspond are met alike, and replaced by variables that correspond. -/
theorem meetAll_rename (hρ : Function.Injective ρ) (kept vs : List Var) {m : Renaming}
    {k₁ k₂ : Nat} (hnext : ∀ j, ρ ⟨k₁ + j⟩ = ⟨k₂ + j⟩) :
    (meetAll (kept.map ρ) (m.rename ρ, k₂) (vs.map ρ)).1 = (meetAll kept (m, k₁) vs).1.rename ρ
      ∧ ∀ j, ρ ⟨(meetAll kept (m, k₁) vs).2 + j⟩
          = ⟨(meetAll (kept.map ρ) (m.rename ρ, k₂) (vs.map ρ)).2 + j⟩ := by
  induction vs generalizing m k₁ k₂ with
  | nil => exact ⟨rfl, hnext⟩
  | cons v vs ih =>
      have hsome : ((m.rename ρ).lookup (ρ v)).isSome = (m.lookup v).isSome := by
        rw [lookup_rename hρ, Option.isSome_map]
      have hmeet : ∀ k₁ (m : Renaming) kept (v : Var) vs,
          meetAll kept (m, k₁) (v :: vs) = meetAll kept (meet kept (m, k₁) v) vs :=
        fun _ _ _ _ _ => rfl
      rw [List.map_cons, hmeet, hmeet]
      simp only [meet, List.mem_map_of_injective hρ, hsome]
      split
      · exact ih hnext
      · have hzero : ρ ⟨k₁⟩ = ⟨k₂⟩ := hnext 0
        have hcons : ((ρ v, ⟨k₂⟩) :: m.rename ρ) = rename ρ ((v, ⟨k₁⟩) :: m) := by
          rw [← hzero]
          rfl
        rw [hcons]
        exact ih fun j => by rw [Nat.add_assoc, Nat.add_assoc, hnext]

end Renaming

namespace Store

variable {ρ : Var → Var} {s₁ s₂ : Store}

theorem varsOf_rename {fixed : List Var}
    (h : ∀ f ∈ fixed, s₁.Twin ρ s₂ (.var f) (.var (ρ f))) :
    s₂.varsOf (fixed.map ρ) = (s₁.varsOf fixed).map ρ := by
  rw [varsOf, varsOf, List.flatMap_map, List.map_flatMap]
  refine List.flatMap_congr fun f hf => ?_
  rw [h f hf, Ty.vars_rename]

/-- The variables of a copy are unbound. -/
theorem IsCopy.unlinked {s s' : Store} {fixed : List Var} {t u : Ty} (h : s.IsCopy fixed t s' u)
    (hs : s.WellFormed) : s'.Unlinked u := by
  intro w hw
  rw [h.alike.bound_iff]
  rcases h.mem_vars hw with ⟨-, hw⟩ | ⟨hle, -⟩
  · exact unlinked_resolve hs.acyclic t w hw
  · exact link?_of_size_le hle

/-- Copies that go on with corresponding replacements are equal up to names, and so are the
replacements they end with. -/
theorem Paired.copyWith (hρ : Function.Injective ρ) (h : s₁.Paired ρ s₂) {t₁ t₂ : Ty}
    (ht : s₁.Twin ρ s₂ t₁ t₂) {fixed : List Var}
    (hfixed : ∀ f ∈ fixed, s₁.Twin ρ s₂ (.var f) (.var (ρ f))) (p : SupplyId) (m : Renaming) :
    let copy₁ := t₁.copyWith fixed p m s₁
    let copy₂ := t₂.copyWith (fixed.map ρ) p (m.rename ρ) s₂
    s₁.Advances ρ s₂ copy₁.2 copy₂.2 ∧ copy₂.1.1 = copy₁.1.1.rename ρ
      ∧ copy₂.1.2 = copy₁.1.2.rename ρ := by
  intro copy₁ copy₂
  obtain ⟨halike₁, hm₁, hu₁⟩ := copies_copyWith h.left t₁ fixed p m s₁ (.refl h.left)
  obtain ⟨halike₂, hm₂, hu₂⟩ :=
    copies_copyWith h.right t₂ (fixed.map ρ) p (m.rename ρ) s₂ (.refl h.right)
  rw [varsOf_rename hfixed, ht, Ty.vars_rename] at hm₂
  obtain ⟨hmap, hnext⟩ :=
    Renaming.meetAll_rename hρ (s₁.varsOf fixed) (s₁.resolve t₁).vars (m := m) h.next
  rw [← hm₁, ← hm₂] at hmap hnext
  refine ⟨h.alike halike₁ halike₂ hnext, ?_, hmap⟩
  have hu₁ : copy₁.1.1 = (s₁.resolve t₁).subst (copy₁.1.2.toSubst (s₁.varsOf fixed)) := hu₁
  have hu₂ : copy₂.1.1 = (s₂.resolve t₂).subst (copy₂.1.2.toSubst (s₂.varsOf (fixed.map ρ))) := hu₂
  rw [hu₁, hu₂, varsOf_rename hfixed, ht, Ty.rename_subst, Ty.subst_rename]
  refine Ty.subst_congr fun v _ => ?_
  rw [← Renaming.toSubst_rename hρ]
  exact congrArg (fun m => Renaming.toSubst m _ (ρ v)) hmap

theorem Paired.copy (hρ : Function.Injective ρ) (h : s₁.Paired ρ s₂) {t₁ t₂ : Ty}
    (ht : s₁.Twin ρ s₂ t₁ t₂) {fixed : List Var}
    (hfixed : ∀ f ∈ fixed, s₁.Twin ρ s₂ (.var f) (.var (ρ f))) (p : SupplyId) :
    let copy₁ := t₁.copy fixed p s₁
    let copy₂ := t₂.copy (fixed.map ρ) p s₂
    s₁.Advances ρ s₂ copy₁.2 copy₂.2 ∧ copy₁.2.Twin ρ copy₂.2 copy₁.1 copy₂.1 := by
  intro copy₁ copy₂
  have hun₁ : copy₁.2.Unlinked copy₁.1 := (isCopy_copy h.left t₁ fixed p).unlinked h.left
  have hun₂ : copy₂.2.Unlinked copy₂.1 := (isCopy_copy h.right t₂ _ p).unlinked h.right
  obtain ⟨hadv, hcopy, -⟩ := h.copyWith hρ ht hfixed p []
  refine ⟨hadv, ?_⟩
  rw [Twin, resolve_of_unlinked hun₁, resolve_of_unlinked hun₂]
  exact hcopy

end Store

end Overload
