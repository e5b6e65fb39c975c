import Overload.Proofs.Reachability
import Overload.Proofs.Twins
import Overload.Proofs.Untouched

/-!
# Fresh copies are independent

A unification is confined to the variables of the two terms (`Session.confined_unify`), also when it
fails after some links are made. A term that shares no unbound variable with them resolves as
before, so the variables it shows are the same ones, and it can be kept apart from the next
unification by the same condition. By induction on the sequence of calls, terms that every
unification is apart from never change (`UnifiesApart.resolve_eq`).

Two copies of a term show different new variables. What is done to one of them therefore changes
neither the other nor the original (`copies_independent`).
-/

namespace Overload

namespace Store

variable {s s' : Store}

theorem varsOf_vars (s : Store) (t : Ty) : s.varsOf t.vars = (s.resolve t).vars := by
  rw [resolve_eq_subst, Ty.vars_subst, varsOf]

theorem mem_freeVars (hs : s.WellFormed) {t : Ty} {v : Var} :
    v ∈ (t.freeVars s).1 ↔ v ∈ (s.resolve t).vars := by
  rw [((reads_freeVars hs t).here hs).1, mem_addNew]
  simp

theorem Covers.owns {t : Ty} (ht : s.Covers t) {fixed : List Var}
    (hfixed : ∀ v ∈ t.vars, v ∈ fixed) : s.Owns fixed s t := by
  refine ⟨ht, fun θ φ _ _ hag => ?_⟩
  rw [ht.subst_patch]
  exact Ty.subst_congr fun v hv => hag v (hfixed v hv)

/-- The two terms show no unbound variable of the terms in `kept`. -/
def Apart (s : Store) (kept : List Ty) (l r : Ty) : Prop :=
  ∀ u ∈ kept, ∀ v ∈ (u.freeVars s).1, v ∉ (l.freeVars s).1 ∧ v ∉ (r.freeVars s).1

instance (s : Store) (kept : List Ty) (l r : Ty) : Decidable (s.Apart kept l r) :=
  inferInstanceAs (Decidable (∀ u ∈ kept, ∀ v ∈ (u.freeVars s).1,
    v ∉ (l.freeVars s).1 ∧ v ∉ (r.freeVars s).1))

end Store

/-! ## Sequences of unifications -/

theorem Session.confined_unify {σ : Session} (hs : σ.store.WellFormed) {l r : Ty}
    (hl : σ.store.Covers l) (hr : σ.store.Covers r) :
    σ.store.Confined (l.vars ++ r.vars) (σ.after (unify l r)).store := by
  have hkeeps := Keeps.unify (.refl hs (l.vars ++ r.vars))
    (hl.owns fun v hv => List.mem_append_left _ hv) (hr.owns fun v hv => List.mem_append_right _ hv)
  exact Ends.after (A := fun σ' => σ.store.Confined (l.vars ++ r.vars) σ'.store) <|
    Ends.mono hkeeps (fun _ _ h => h.1.1) fun _ _ h => h

theorem Session.resolve_unify_of_apart {σ : Session} (hs : σ.store.WellFormed) {l r : Ty}
    (hl : σ.store.Covers l) (hr : σ.store.Covers r) {kept : List Ty}
    (hapart : σ.store.Apart kept l r) {u : Ty} (hmem : u ∈ kept) (hu : σ.store.Covers u) :
    (σ.after (unify l r)).store.resolve u = σ.store.resolve u := by
  refine (Session.confined_unify hs hl hr).resolve_eq_of_apart hs hu fun v hv hshown => ?_
  obtain ⟨hnl, hnr⟩ := hapart u hmem v ((Store.mem_freeVars hs).mpr hv)
  rw [Store.mem_freeVars hs] at hnl hnr
  rw [Store.varsOf, List.flatMap_append] at hshown
  rcases List.mem_append.mp hshown with h | h
  · exact hnl (σ.store.varsOf_vars l ▸ h)
  · exact hnr (σ.store.varsOf_vars r ▸ h)

/-- Unifications one after the other, each with any outcome and each of terms that are apart from
the kept ones at that moment. -/
inductive UnifiesApart (kept : List Ty) (σ : Session) : Session → Prop
  | done : UnifiesApart kept σ σ
  | step {σ' : Session} {l r : Ty} : UnifiesApart kept σ σ' → σ'.store.Covers l →
      σ'.store.Covers r → σ'.store.Apart kept l r →
      UnifiesApart kept σ (σ'.after (unify l r))

namespace UnifiesApart

variable {kept : List Ty} {σ σ' : Session}

theorem extends_store (h : UnifiesApart kept σ σ') (hs : σ.store.WellFormed) :
    σ.store.Extends σ'.store := by
  induction h with
  | done => exact .refl hs
  | step _ hl hr _ ih => exact ih.trans (Session.confined_unify ih.wellFormed hl hr).toExtends

theorem resolve_eq (h : UnifiesApart kept σ σ') (hs : σ.store.WellFormed) {u : Ty}
    (hmem : u ∈ kept) (hu : σ.store.Covers u) : σ'.store.resolve u = σ.store.resolve u := by
  induction h with
  | done => rfl
  | step h hl hr hapart ih =>
      have hext := h.extends_store hs
      rw [← ih]
      exact Session.resolve_unify_of_apart hext.wellFormed hl hr hapart hmem (hu.mono hext.size_le)

end UnifiesApart

/-! ## Two copies -/

/-- `ρ` renames the variables of `t` to different ones that `s'` has beyond `s`. -/
structure Ty.RenamedBy (t : Ty) (s s' : Store) (ρ : Var → Var) (u : Ty) : Prop where
  eq : u = t.rename ρ
  inj : Set.InjOn ρ { v | v ∈ t.vars }
  new : ∀ v ∈ t.vars, s.size ≤ (ρ v).index ∧ (ρ v).index < s'.size

/-- With nothing fixed, every variable is replaced. -/
theorem Store.IsCopy.renamed {s s' : Store} {t u : Ty} (h : s.IsCopy [] t s' u) :
    ∃ ρ, (s.resolve t).RenamedBy s s' ρ u := by
  obtain ⟨θ, hθ, rfl⟩ := h.freshens
  have hnew : ∀ v, ∃ w, v ∈ (s.resolve t).vars →
      θ v = .var w ∧ s.size ≤ w.index ∧ w.index < s'.size := by
    intro v
    by_cases hv : v ∈ (s.resolve t).vars
    · obtain ⟨w, hw⟩ := hθ.new v hv (not_mem_varsOf_nil v)
      exact ⟨w, fun _ => hw⟩
    · exact ⟨v, fun h => absurd h hv⟩
  choose ρ hρ using hnew
  refine ⟨ρ, Ty.subst_congr fun v hv => (hρ v hv).1, fun v hv w hw heq => ?_,
    fun v hv => (hρ v hv).2⟩
  refine hθ.inj v hv (not_mem_varsOf_nil v) w hw (not_mem_varsOf_nil w) ?_
  rw [(hρ v hv).1, (hρ w hw).1, heq]

/-- Two copies of a term are renamings of what it stands for, to new variables that they do not
share. Whatever unifications follow, if they are apart from the term and from the second copy then
both still stand for what they stood for. -/
theorem copies_independent {σ : Session} (hs : σ.store.WellFormed) {t c₁ c₂ : Ty}
    (ht : σ.store.Covers t) {p q : SupplyId} {s₁ s₂ : Store}
    (h₁ : t.copy [] p σ.store = (c₁, s₁)) (h₂ : t.copy [] q s₁ = (c₂, s₂)) :
    (∃ ρ₁ ρ₂, (s₂.resolve t).RenamedBy σ.store s₁ ρ₁ (s₂.resolve c₁)
        ∧ (s₂.resolve t).RenamedBy s₁ s₂ ρ₂ (s₂.resolve c₂)
        ∧ ∀ v ∈ (s₂.resolve t).vars, ∀ w ∈ (s₂.resolve t).vars, ρ₁ v ≠ ρ₂ w)
      ∧ ∀ σ', UnifiesApart [t, c₂] { σ with store := s₂ } σ' →
          σ'.store.resolve t = s₂.resolve t ∧ σ'.store.resolve c₂ = s₂.resolve c₂ := by
  have hcopy₁ := Store.isCopy_copy hs t [] p
  rw [h₁] at hcopy₁
  have hs₁ := hcopy₁.alike.wellFormed
  have hcopy₂ := Store.isCopy_copy hs₁ t [] q
  rw [h₂] at hcopy₂
  have hs₂ := hcopy₂.alike.wellFormed
  have ht₁ : s₁.Covers t := ht.mono hcopy₁.alike.size_le
  constructor
  · obtain ⟨ρ₁, hρ₁⟩ := hcopy₁.renamed
    obtain ⟨ρ₂, hρ₂⟩ := hcopy₂.renamed
    -- a copy shows unbound variables only, so it stands for itself
    have hc₁ : s₂.resolve c₁ = c₁ :=
      (hcopy₂.alike.resolve_eq hs₁ c₁).trans (Store.resolve_of_unlinked (hcopy₁.unlinked hs))
    rw [hc₁, Store.resolve_of_unlinked (hcopy₂.unlinked hs₁), hcopy₂.alike.resolve_eq hs₁]
    rw [hcopy₁.alike.resolve_eq hs] at hρ₂ ⊢
    refine ⟨ρ₁, ρ₂, hρ₁, hρ₂, fun v hv w hw heq => ?_⟩
    have hlt := (hρ₁.new v hv).2
    have hle := (hρ₂.new w hw).1
    rw [heq] at hlt
    omega
  · intro σ' h
    exact ⟨h.resolve_eq hs₂ (by simp) (ht₁.mono hcopy₂.alike.size_le),
      h.resolve_eq hs₂ (by simp) (hcopy₂.covers hs₁ ht₁)⟩

/-- `#0 -> #2` is copied to `List #3 -> #4` and `List #5 -> #6`. The first copy is unified with
`List Int -> List #4`, which fails after `#3` is linked, and then `#4` with `Bool`. -/
theorem copies_independent_sample :
    let t := Ty.fn (.var ⟨0⟩) (.var ⟨2⟩)
    let c₁ := t.copy [] 0 Store.sample
    let c₂ := t.copy [] 0 c₁.2
    let σ₁ := Session.after { store := c₂.2 }
      (unify c₁.1 (.fn (.list (.nullary .int)) (.list (.var ⟨4⟩))))
    let σ₂ := σ₁.after (unify (.var ⟨4⟩) (.nullary .bool))
    Store.sample.WellFormed ∧ Store.sample.Covers t
      ∧ UnifiesApart [t, c₂.1] { store := c₂.2 } σ₂
      ∧ σ₂.store.resolve c₁.1 = .fn (.list (.nullary .int)) (.nullary .bool)
      ∧ σ₂.store.resolve t = c₂.2.resolve t ∧ σ₂.store.resolve c₂.1 = c₂.2.resolve c₂.1 := by
  intro t c₁ c₂ σ₁ σ₂
  have ht : Store.sample.Covers t := by decide +kernel
  have hrun : UnifiesApart [t, c₂.1] { store := c₂.2 } σ₂ := by
    refine .step (.step .done ?_ ?_ ?_) ?_ ?_ ?_
    all_goals decide +kernel
  have hkept := (copies_independent (σ := { store := Store.sample }) Store.sample_wellFormed ht
    (Prod.mk.eta (p := c₁)).symm (Prod.mk.eta (p := c₂)).symm).2 σ₂ hrun
  exact ⟨Store.sample_wellFormed, ht, hrun, by decide +kernel, hkept⟩

end Overload
